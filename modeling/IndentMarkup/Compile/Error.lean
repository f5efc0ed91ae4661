import IndentMarkup.Markup.Placeholder

/-! Why a source does not compile. -/
namespace IndentMarkup

/-- What ended a compilation, with the line, counted from 1, on which it starts. -/
inductive CompileError
  /-- Inline content whose first line closes more brackets than it opens. -/
  | unbalancedClosing (line : Nat)
  /-- Inline content that is still open at the end of the source. -/
  | unmatchedOpening (line : Nat)
  /-- An attribute value with a placeholder that is not closed. -/
  | unclosedPlaceholder (placeholder : Placeholder) (line : Nat)
deriving DecidableEq, Repr

namespace CompileError

def line : CompileError → Nat
  | unbalancedClosing line => line
  | unmatchedOpening line => line
  | unclosedPlaceholder _ line => line

def code : CompileError → Text
  | unbalancedClosing _ => "unbalanced-closing-bracket".toList
  | unmatchedOpening _ => "unmatched-opening-bracket".toList
  | unclosedPlaceholder _ _ => "unmatched-template-delimiter".toList

def message : CompileError → Text
  | unbalancedClosing line => "Too many '>' found on line ".toList ++ Nat.toDigits 10 line
  | unmatchedOpening line => "Unmatched '<' found on line ".toList ++ Nat.toDigits 10 line
  | unclosedPlaceholder p line =>
    "Unmatched '".toList ++ p.opener ++ "' found in line ".toList ++ Nat.toDigits 10 line

/-- What the writer of the source can do about it. -/
def help : CompileError → Text
  | unbalancedClosing _ => "inline content has more '>' than '<' on its first line".toList
  | unmatchedOpening _ =>
    "inline content reached the end of the file before its closing '>'".toList
  | unclosedPlaceholder _ _ => "close the template placeholder on the same line".toList

end CompileError
end IndentMarkup
