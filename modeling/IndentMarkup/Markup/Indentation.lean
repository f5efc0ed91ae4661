import IndentMarkup.Text.Search

/-! Nesting levels, read off the blanks that lines start with. -/
namespace IndentMarkup

/-- The unit of indentation, empty until the first indented text sets it. -/
structure Indentation where
  unit : Text := []
deriving DecidableEq, Repr

namespace Indentation

/-- How often a non-empty `unit` can be taken off the front of a text. -/
def copies (unit t : Text) : Nat :=
  match _h : Text.skipMark? unit t with
  | none => 0
  | some rest => copies unit rest + 1
termination_by t.length
decreasing_by
  obtain ⟨hu, rfl⟩ := Text.eq_of_skipMark? _h
  have := List.length_pos_iff.mpr hu
  simp only [List.length_append]
  omega

/-- The level of a text: the number of whole units it is indented by. The first indentation becomes
the unit. -/
def levelOf (i : Indentation) (t : Text) : Nat × Indentation :=
  let blanks := t.leadingBlanks
  if blanks.isEmpty then (0, i)
  else if i.unit.isEmpty then (1, ⟨blanks⟩)
  else (copies i.unit blanks, i)

end Indentation
end IndentMarkup
