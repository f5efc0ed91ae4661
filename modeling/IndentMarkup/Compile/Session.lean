import IndentMarkup.Compile.Run

/-! A compiler that keeps a text, options and its last output between compilations. -/
namespace IndentMarkup

structure Session where
  text : Text := []
  options : Options := {}
  /-- The HTML of the last compilation that succeeded. -/
  output : Text := []
deriving Repr

namespace Session

def setText (s : Session) (text : Text) : Session :=
  { s with text }

def setCompress (s : Session) (compress : Bool) : Session :=
  { s with options.compress := compress }

def setToken (s : Session) (token : Char) : Session :=
  { s with options.token := token }

/-- Compiles the stored text. A text or layout given here is stored first, and stays stored if the
compilation fails; the output changes only if it succeeds. -/
def compile (s : Session) (text : Option Text) (compress : Option Bool) :
    Except CompileError Text × Session :=
  let s := text.elim s s.setText
  let s := compress.elim s s.setCompress
  match IndentMarkup.compile s.options s.text with
  | .error e => (.error e, s)
  | .ok html => (.ok html, { s with output := html })

end Session
end IndentMarkup
