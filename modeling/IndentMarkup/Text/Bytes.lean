import IndentMarkup.Text.Blank

/-! Positions in a text counted in the bytes of its UTF-8 form. -/
namespace IndentMarkup.Text

def byteSize (t : Text) : Nat :=
  t.foldr (fun c size => c.utf8Size + size) 0

/-- The bytes of the UTF-8 form. -/
def utf8 (t : Text) : List UInt8 :=
  t.flatMap String.utf8EncodeChar

/-- The text that bytes are the UTF-8 form of. -/
def ofUtf8? (bytes : List UInt8) : Option Text :=
  (String.fromUTF8? ⟨bytes.toArray⟩).map String.toList

/-- The text from a byte offset on, if a character starts there or the text ends there. -/
def dropBytes? : (offset : Nat) → Text → Option Text
  | 0, t => some t
  | _ + 1, [] => none
  | n + 1, c :: t => if c.utf8Size ≤ n + 1 then dropBytes? (n + 1 - c.utf8Size) t else none
termination_by _ t => t.length

/-- The text up to a byte offset, if a character starts there or the text ends there. -/
def takeBytes? : (offset : Nat) → Text → Option Text
  | 0, _ => some []
  | _ + 1, [] => none
  | n + 1, c :: t =>
    if c.utf8Size ≤ n + 1 then (takeBytes? (n + 1 - c.utf8Size) t).map (c :: ·) else none
termination_by _ t => t.length

/-- The text between two byte offsets, if both are character boundaries in order. -/
def slice? (start stop : Nat) (t : Text) : Option Text := do
  let rest ← dropBytes? start t
  if start ≤ stop then takeBytes? (stop - start) rest else none

/-- The character that starts at a byte offset. -/
def charAt? (offset : Nat) (t : Text) : Option Char := do
  let rest ← dropBytes? offset t
  rest.head?

end IndentMarkup.Text
