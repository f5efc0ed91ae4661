import Mathlib.Data.List.Infix
import IndentMarkup.Text.Search

/-! Where a mark is found: at its first occurrence, and nowhere if it does not occur. -/
namespace IndentMarkup.Text

variable {mark t : Text}

@[simp] theorem dropStart?_append (start after : Text) :
    dropStart? start (start ++ after) = some after := by
  induction start with
  | nil => simp [dropStart?]
  | cons c start ih => simp [dropStart?, ih]

theorem skipMark?_append (hm : mark ≠ []) (after : Text) :
    skipMark? mark (mark ++ after) = some after := by
  simp [skipMark?, hm]

theorem skipMark?_eq_none_iff (hm : mark ≠ []) : skipMark? mark t = none ↔ ¬mark <+: t := by
  constructor
  · rintro h ⟨after, rfl⟩
    simp [skipMark?_append hm] at h
  · intro h
    cases hs : skipMark? mark t with
    | none => rfl
    | some after => exact absurd ⟨after, (eq_of_skipMark? hs).2.symm⟩ h

theorem cut?_eq_none_iff (hm : mark ≠ []) : cut? mark t = none ↔ ¬mark <:+: t := by
  induction t with
  | nil => simp [cut?, hm]
  | cons c t ih =>
    rw [List.infix_cons_iff, not_or, ← skipMark?_eq_none_iff hm, ← ih, cut?]
    cases hs : skipMark? mark (c :: t) with
    | none => simp
    | some after => simp

/-- No occurrence of the mark starts in front of the one that is found. -/
theorem length_le_of_cut? {before after : Text} (hm : mark ≠ [])
    (h : cut? mark t = some (before, after)) {front back : Text} (ht : t = front ++ mark ++ back) : before.length ≤ front.length := by
  induction t generalizing before front with
  | nil => simp [cut?] at h
  | cons c t ih =>
    rw [cut?] at h
    split at h
    · obtain ⟨rfl, -⟩ := by simpa using h
      exact Nat.zero_le _
    · next hs =>
      obtain ⟨⟨b, a⟩, hc, hp⟩ := Option.map_eq_some_iff.mp h
      obtain ⟨rfl, rfl⟩ := by simpa using hp
      cases front with
      | nil => exact absurd ⟨back, ht.symm⟩ ((skipMark?_eq_none_iff hm).mp hs)
      | cons d front =>
        obtain ⟨-, ht⟩ := List.cons.inj ht
        exact Nat.succ_le_succ (ih hc ht)

theorem cut?_of_first {before after : Text} (hm : mark ≠ [])
    (h : ∀ front back, before ++ mark ++ after = front ++ mark ++ back →
      before.length ≤ front.length) :
    cut? mark (before ++ mark ++ after) = some (before, after) := by
  cases hc : cut? mark (before ++ mark ++ after) with
  | none => exact absurd (List.infix_append before mark after) ((cut?_eq_none_iff hm).mp hc)
  | some found =>
    obtain ⟨b, a⟩ := found
    have he := (eq_of_cut? hc).2
    have hlen : b.length = before.length :=
      Nat.le_antisymm (length_le_of_cut? hm hc rfl) (h b a he)
    rw [List.append_assoc, List.append_assoc] at he
    obtain ⟨rfl, hafter⟩ := List.append_inj he hlen.symm
    rw [List.append_cancel_left hafter]

/-- A mark that does not stand earlier is found right behind `body`. -/
theorem cut?_append {body : Text} (hm : mark ≠ []) (hb : ¬mark <:+: (body ++ mark).dropLast)
    (after : Text) : cut? mark (body ++ mark ++ after) = some (body, after) := by
  apply cut?_of_first hm
  intro front back h
  by_contra hlt
  -- an occurrence in front of this one ends in the text that is known to be free of the mark
  have hfront : front ++ mark <+: (body ++ mark).dropLast := by
    have hwhole : (body ++ mark).dropLast <+: body ++ mark ++ after :=
      (List.dropLast_prefix _).trans (List.prefix_append _ _)
    apply List.prefix_of_prefix_length_le ⟨back, h.symm⟩ hwhole
    simp only [List.length_dropLast, List.length_append]
    omega
  exact hb ((List.suffix_append front mark).isInfix.trans hfront.isInfix)

/-- The first mark stands at the end of what is cut off with it. -/
theorem not_infix_dropLast_of_cut? {before after : Text} (hm : mark ≠ [])
    (h : cut? mark t = some (before, after)) : ¬mark <:+: (before ++ mark).dropLast := by
  rintro ⟨front, back, hf⟩
  obtain ⟨rest, hrest⟩ := List.dropLast_prefix (before ++ mark)
  have ht : t = front ++ mark ++ (back ++ rest ++ after) := by
    rw [(eq_of_cut? h).2, ← hrest, ← hf]
    simp
  have hle := length_le_of_cut? hm h ht
  have hpos := List.length_pos_iff.mpr hm
  have hlen := congrArg List.length hf
  simp only [List.length_append, List.length_dropLast] at hlen
  omega

theorem cut?_singleton_eq_none_iff {c : Char} : cut? [c] t = none ↔ c ∉ t := by
  rw [cut?_eq_none_iff (by simp), List.singleton_infix_iff]

theorem cut?_singleton {c : Char} {body : Text} (hb : c ∉ body) (after : Text) :
    cut? [c] (body ++ c :: after) = some (body, after) := by
  have h : ¬[c] <:+: (body ++ [c]).dropLast := by simpa [List.singleton_infix_iff] using hb
  simpa using cut?_append (by simp) h after

/-- What stands in front of the first mark is free of it. -/
theorem not_infix_of_cut? (hm : mark ≠ []) {before after : Text}
    (h : cut? mark t = some (before, after)) : ¬mark <:+: before := by
  intro hi
  apply not_infix_dropLast_of_cut? hm h
  rw [List.dropLast_append_of_ne_nil hm]
  exact hi.trans (List.prefix_append _ _).isInfix

/-- A text around the first occurrence of a character. -/
theorem eq_of_cut?_singleton {c : Char} {before after : Text}
    (h : cut? [c] t = some (before, after)) : t = before ++ c :: after ∧ c ∉ before := by
  refine ⟨by simpa using (eq_of_cut? h).2, ?_⟩
  have hi := not_infix_of_cut? (by simp) h
  rwa [List.singleton_infix_iff] at hi

theorem pieces_of_unmarked (hm : mark ≠ []) (h : ¬mark <:+: t) : pieces mark t = [t] := by
  rw [pieces]
  split
  · rfl
  · next hc => simp [(cut?_eq_none_iff hm).mpr h] at hc

theorem pieces_of_cut? {before after : Text} (h : cut? mark t = some (before, after)) :
    pieces mark t = before :: pieces mark after := by
  rw [pieces]
  split
  · next hc => simp [h] at hc
  · next hc =>
    obtain ⟨rfl, rfl⟩ := Prod.mk.inj (Option.some.inj (h.symm.trans hc))
    rfl

theorem pieces_singleton_of_notMem {c : Char} (h : c ∉ t) : pieces [c] t = [t] :=
  pieces_of_unmarked (by simp) (by rwa [List.singleton_infix_iff])

theorem pieces_singleton_append {c : Char} {body : Text} (h : c ∉ body) (rest : Text) :
    pieces [c] (body ++ c :: rest) = body :: pieces [c] rest :=
  pieces_of_cut? (cut?_singleton h rest)

/-- There is one piece more than there are marks. -/
theorem length_pieces_singleton (c : Char) (t : Text) :
    (pieces [c] t).length = t.count c + 1 := by
  fun_induction pieces [c] t with
  | case1 t hc =>
    have hn : c ∉ t := cut?_singleton_eq_none_iff.mp hc
    rw [List.length_singleton, List.count_eq_zero.mpr hn]
  | case2 t before after hc ih =>
    obtain ⟨rfl, hb⟩ := eq_of_cut?_singleton hc
    rw [List.length_cons, ih, List.count_append, List.count_eq_zero.mpr hb, List.count_cons_self,
      Nat.zero_add]

/-- A piece stands in the text. -/
theorem infix_of_mem_pieces {p : Text} (h : p ∈ pieces mark t) : p <:+: t := by
  fun_induction pieces mark t with
  | case1 t hc => simp_all
  | case2 t before after hc ih =>
    rw [(eq_of_cut? hc).2]
    rcases List.mem_cons.mp h with rfl | hp
    · exact ((List.prefix_append _ _).trans (List.prefix_append _ _)).isInfix
    · exact (ih hp).trans (List.suffix_append _ _).isInfix

theorem not_infix_of_mem_pieces (hm : mark ≠ []) {p : Text} (h : p ∈ pieces mark t) :
    ¬mark <:+: p := by
  fun_induction pieces mark t with
  | case1 t hc =>
    obtain rfl := List.mem_singleton.mp h
    exact (cut?_eq_none_iff hm).mp hc
  | case2 t before after hc ih =>
    rcases List.mem_cons.mp h with rfl | hp
    · exact not_infix_of_cut? hm hc
    · exact ih hp

/-- The first piece stands at the front. -/
theorem exists_pieces_eq_cons (mark t : Text) :
    ∃ first others, pieces mark t = first :: others ∧ first <+: t := by
  rw [pieces]
  split
  · exact ⟨t, [], rfl, List.prefix_refl t⟩
  · next before after hc =>
    refine ⟨before, _, rfl, ?_⟩
    rw [(eq_of_cut? hc).2, List.append_assoc]
    exact List.prefix_append ..

end IndentMarkup.Text
