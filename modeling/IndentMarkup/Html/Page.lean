import IndentMarkup.Html.Line

/-! A page under construction: what is written, and which tags are still open. -/
namespace IndentMarkup.Html

/-- A tag that waits for its closing tag, and the level it was opened at. -/
structure OpenTag where
  level : Nat
  tag : Text
deriving DecidableEq, Repr

/-- The line that closes a tag. -/
def OpenTag.close (unit : Text) (t : OpenTag) : Line :=
  ⟨unit, t.level, .closing t.tag⟩

structure Page where
  /-- The innermost tag comes first. -/
  openTags : List OpenTag := []
  /-- What is written so far, in order. -/
  lines : Array Line := #[]
deriving Repr

namespace Page

def push (p : Page) (unit : Text) (level : Nat) (piece : Piece) : Page :=
  { p with lines := p.lines.push ⟨unit, level, piece⟩ }

/-- Closes the innermost open tag, if there is one. -/
def closeTag? (unit : Text) (p : Page) : Option Page :=
  match p.openTags with
  | [] => none
  | top :: rest => some { openTags := rest, lines := p.lines.push (top.close unit) }

/-- Closes tags from the innermost one outwards for as long as they are `due`. -/
def closeWhile (p : Page) (unit : Text) (due : OpenTag → Bool) : Page where
  openTags := p.openTags.dropWhile due
  lines := p.lines ++ (p.openTags.takeWhile due).map (·.close unit)

/-- Closes the tags that were opened at `level` or deeper, as far as no shallower one covers them.
-/
def closeFrom (p : Page) (unit : Text) (level : Nat) : Page :=
  p.closeWhile unit fun t => level ≤ t.level

def closeAll (p : Page) (unit : Text) : Page :=
  p.closeWhile unit fun _ => true

def writeVerbatim (p : Page) (unit : Text) (level : Nat) (text : Text) : Page :=
  p.push unit level (.verbatim text)

/-- Writes an element. One with children stays open. -/
def writeElement (p : Page) (unit : Text) (level : Nat) (e : Element) : Page :=
  let p := p.push unit level (.element e)
  match e.body with
  | .children => { p with openTags := ⟨level, e.tag⟩ :: p.openTags }
  | _ => p

def render (compress : Bool) (p : Page) : Text :=
  p.lines.toList.flatMap (Line.render compress)

end Page
end IndentMarkup.Html
