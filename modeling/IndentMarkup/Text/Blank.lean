/-! Text as a list of characters, and what counts as blank in it. -/
namespace IndentMarkup

/-- A text is the list of its characters, each a Unicode scalar value. -/
abbrev Text := List Char

namespace Text

/-- The characters with the Unicode property White_Space. -/
def isBlank (c : Char) : Bool :=
  let n := c.toNat
  (9 ≤ n && n ≤ 13) || n == 0x20 || n == 0x85 || n == 0xA0 || n == 0x1680 ||
    (0x2000 ≤ n && n ≤ 0x200A) || n == 0x2028 || n == 0x2029 || n == 0x202F || n == 0x205F ||
    n == 0x3000

/-- Blanks that may stand inside a line: only these indent it or part its words. -/
def isInlineBlank (c : Char) : Bool :=
  c == ' ' || c == '\t'

def trimStart (t : Text) : Text :=
  t.dropWhile isBlank

def trimEnd (t : Text) : Text :=
  (t.reverse.dropWhile isBlank).reverse

/-- The text without the blanks at either end. -/
def trim (t : Text) : Text :=
  trimEnd (trimStart t)

/-- The run of spaces and tabs a text starts with. -/
def leadingBlanks (t : Text) : Text :=
  t.takeWhile isInlineBlank

/-- The first word of a text: what stands before the first space or tab once it is trimmed. -/
def firstWord (t : Text) : Text :=
  (trim t).takeWhile fun c => !isInlineBlank c

end Text
end IndentMarkup
