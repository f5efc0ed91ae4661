import IndentMarkup.Text.Bytes

/-! Where the lines of a source text lie, in bytes. -/
namespace IndentMarkup

/-- The bytes from `start` up to, and not including, `stop`. -/
structure Span where
  start : UInt32
  stop : UInt32
deriving DecidableEq, Repr

/-- The byte offsets at which the lines of a text start, and the text's size. -/
structure LineIndex where
  starts : List UInt32
  size : UInt32

namespace LineIndex

/-- The offsets right after the line feeds of a text that itself starts at `offset`. -/
def startsAfter (offset : Nat) : Text → List UInt32
  | [] => []
  | c :: t =>
    let next := offset + c.utf8Size
    if c = '\n' then next.toUInt32 :: startsAfter next t else startsAfter next t

def ofText (t : Text) : LineIndex where
  starts := 0 :: startsAfter 0 t
  size := t.byteSize.toUInt32

/-- The span of a line, counted from 1, without its line break. A carriage return at its end, looked
up in `t`, belongs to the line break. -/
def lineSpan? (index : LineIndex) (line : Nat) (t : Text) : Option Span := do
  if line = 0 then none
  let start ← index.starts[line - 1]?
  let stop := match index.starts[line]? with
    | some next => next - 1
    | none => index.size
  if start < stop && t.charAt? (stop.toNat - 1) == some '\r' then return ⟨start, stop - 1⟩
  return ⟨start, stop⟩

end LineIndex

/-- The text a span covers, if the span lies in the text on character boundaries. -/
def Span.text? (s : Span) (t : Text) : Option Text :=
  t.slice? s.start.toNat s.stop.toNat

end IndentMarkup
