import IndentMarkup.Text.Blank

/-! Taking comments out of JSON text. -/
namespace IndentMarkup.Json

/-- Where in the text a character stands. -/
inductive Region
  | plain
  | string
  | lineComment
  | blockComment
deriving DecidableEq, Repr

/-- Removes line comments up to their line feed, and block comments. Strings are left as they are,
with the comment marks in them. -/
def stripFrom : Region → Text → Text
  | _, [] => []
  | .plain, '/' :: '/' :: t => stripFrom .lineComment t
  | .plain, '/' :: '*' :: t => stripFrom .blockComment t
  | .plain, c :: t => c :: stripFrom (if c = '"' then .string else .plain) t
  | .string, '\\' :: c :: t => '\\' :: c :: stripFrom .string t
  | .string, c :: t => c :: stripFrom (if c = '"' then .plain else .string) t
  | .lineComment, c :: t =>
    if c = '\n' then '\n' :: stripFrom .plain t else stripFrom .lineComment t
  | .blockComment, '*' :: '/' :: t => stripFrom .plain t
  | .blockComment, _ :: t => stripFrom .blockComment t

/-- The text without its comments. -/
def stripComments (t : Text) : Text :=
  stripFrom .plain t

end IndentMarkup.Json
