import IndentMarkup.Text.Search

/-! Template placeholders, which a later stage fills in and which pass through unread. -/
namespace IndentMarkup

/-- The two kinds of placeholder: doubled braces, and angle brackets with percent signs. -/
inductive Placeholder
  | braces
  | percent
deriving DecidableEq, Repr

namespace Placeholder

def opener : Placeholder → Text
  | braces => ['\x7b', '\x7b']
  | percent => ['<', '%']

def closer : Placeholder → Text
  | braces => ['\x7d', '\x7d']
  | percent => ['%', '>']

/-- The placeholder a text starts with, and the text after its opener. -/
def start? (t : Text) : Option (Placeholder × Text) :=
  match t with
  | '\x7b' :: '\x7b' :: inner => some (.braces, inner)
  | '<' :: '%' :: inner => some (.percent, inner)
  | _ => none

theorem eq_of_start? {t inner : Text} {p : Placeholder} (h : start? t = some (p, inner)) :
    t = p.opener ++ inner := by
  unfold start? at h
  split at h <;> simp at h <;> obtain ⟨rfl, rfl⟩ := h <;> rfl

end Placeholder
end IndentMarkup
