import IndentMarkup.Text.Blank

/-! Looking for one text inside another. An empty text is never found, so every find makes progress
and the searches below end. -/
namespace IndentMarkup.Text

/-- What is left of `t` after `start`, if `t` starts with it. -/
def dropStart? : (start t : Text) → Option Text
  | [], t => some t
  | _ :: _, [] => none
  | a :: start, b :: t => if a = b then dropStart? start t else none

/-- What is left of `t` after a non-empty `mark` that stands at its front. -/
def skipMark? (mark t : Text) : Option Text :=
  if mark.isEmpty then none else dropStart? mark t

/-- The text before the first `mark` and the text after it. -/
def cut? (mark : Text) : Text → Option (Text × Text)
  | [] => none
  | c :: t =>
    match skipMark? mark (c :: t) with
    | some after => some ([], after)
    | none => (cut? mark t).map fun (before, after) => (c :: before, after)

theorem eq_of_dropStart? {start t after : Text} (h : dropStart? start t = some after) :
    t = start ++ after := by
  fun_induction dropStart? start t with
  | case1 t => simp_all
  | case2 => simp at h
  | case3 a start t ih => simp [ih h]
  | case4 => simp at h

theorem eq_of_skipMark? {mark t after : Text} (h : skipMark? mark t = some after) :
    mark ≠ [] ∧ t = mark ++ after := by
  unfold skipMark? at h
  split at h
  · simp at h
  · next hm => exact ⟨by simpa using hm, eq_of_dropStart? h⟩

theorem eq_of_cut? {mark t before after : Text} (h : cut? mark t = some (before, after)) :
    mark ≠ [] ∧ t = before ++ mark ++ after := by
  induction t generalizing before with
  | nil => simp [cut?] at h
  | cons c t ih =>
    rw [cut?] at h
    split at h
    · next hs =>
      obtain ⟨rfl, rfl⟩ := by simpa using h
      simpa using eq_of_skipMark? hs
    · obtain ⟨⟨b, a⟩, hc, hp⟩ := Option.map_eq_some_iff.mp h
      obtain ⟨rfl, rfl⟩ := by simpa using hp
      obtain ⟨hm, rfl⟩ := ih hc
      simp [hm]

theorem length_of_cut? {mark t before after : Text} (h : cut? mark t = some (before, after)) :
    after.length < t.length := by
  obtain ⟨hm, rfl⟩ := eq_of_cut? h
  have := List.length_pos_iff.mpr hm
  simp only [List.length_append]
  omega

/-- The pieces of `t` between the occurrences of `mark`, found from the left without overlap. -/
def pieces (mark t : Text) : List Text :=
  match _h : cut? mark t with
  | none => [t]
  | some (before, after) => before :: pieces mark after
termination_by t.length
decreasing_by exact length_of_cut? _h

end IndentMarkup.Text
