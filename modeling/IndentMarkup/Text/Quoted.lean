import IndentMarkup.Text.Hidden

/-! Texts in quotes, as messages show them. -/
namespace IndentMarkup.Text

def escapeShown (c : Char) : Text :=
  if c = '"' then ['\\', '"']
  else if c = '\\' then ['\\', '\\']
  else if c = '\n' then ['\\', 'n']
  else if c = '\r' then ['\\', 'r']
  else if c = '\t' then ['\\', 't']
  else if c.toNat = 0 then ['\\', '0']
  else if isHidden c then '\\' :: 'u' :: '\x7b' :: Nat.toDigits 16 c.toNat ++ ['\x7d']
  else [c]

/-- The text in quotes, with escapes for what would not show. -/
def quoted (t : Text) : Text :=
  '"' :: t.flatMap escapeShown ++ ['"']

end IndentMarkup.Text
