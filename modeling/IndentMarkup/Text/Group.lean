import IndentMarkup.Text.Search

/-! Removing the groups of a text, a group being what a pair of equal marks encloses. -/
namespace IndentMarkup.Text

/-- The elements at even positions. -/
def everyOther {α : Type} : List α → List α
  | [] => []
  | [a] => [a]
  | a :: _ :: l => a :: everyOther l

/-- Removes what stands between the first and the second `mark`, the third and the fourth and so on,
with the marks. A group that is never closed reaches to the end. -/
def removeGroups (mark t : Text) : Text :=
  (everyOther (pieces mark t)).flatten

end IndentMarkup.Text
