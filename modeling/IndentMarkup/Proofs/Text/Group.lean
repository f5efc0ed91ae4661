import Mathlib.Data.List.Flatten
import IndentMarkup.Proofs.Text.Bytes
import IndentMarkup.Proofs.Text.Cut
import IndentMarkup.Text.Group

/-! Removing groups keeps every other piece of a text. The pieces are those around the occurrences of
the mark, each the first one behind the occurrence before. -/
namespace IndentMarkup.Text

variable {mark t : Text} {ps : List Text}

/-- The pieces that the occurrences of a mark cut a text into. A text without the mark is one piece;
any other is cut at the first occurrence, and what stands behind that is cut in the same way. -/
inductive CutsInto (mark : Text) : Text → List Text → Prop
  | whole {t : Text} : ¬mark <:+: t → CutsInto mark t [t]
  | cut {before after : Text} {ps : List Text} :
      (∀ front back, before ++ mark ++ after = front ++ mark ++ back →
        before.length ≤ front.length) →
      CutsInto mark after ps → CutsInto mark (before ++ mark ++ after) (before :: ps)

theorem cutsInto_pieces (hm : mark ≠ []) (t : Text) : CutsInto mark t (pieces mark t) := by
  fun_induction pieces mark t with
  | case1 t hc => exact .whole ((cut?_eq_none_iff hm).mp hc)
  | case2 t before after hc ih =>
    obtain ⟨-, rfl⟩ := eq_of_cut? hc
    exact .cut (fun front back hf => length_le_of_cut? hm hc hf) ih

theorem cutsInto_iff (hm : mark ≠ []) : CutsInto mark t ps ↔ ps = pieces mark t := by
  constructor
  · intro h
    induction h with
    | whole hw => exact (pieces_of_unmarked hm hw).symm
    | cut hfirst _ ih => rw [pieces_of_cut? (cut?_of_first hm hfirst), ih]
  · rintro rfl
    exact cutsInto_pieces hm t

theorem CutsInto.eq_intercalate (h : CutsInto mark t ps) :
    t = mark.intercalate ps := by
  induction h with
  | whole _ => simp
  | @cut before after ps _ h ih =>
    cases h with
    | whole _ => simp [List.intercalate]
    | cut _ _ => rw [List.intercalate_cons_cons, ← ih]

/-- The pieces and the marks between them hold the characters of the text. -/
theorem CutsInto.perm (h : CutsInto mark t ps) :
    ∃ m, ps.length = m + 1 ∧ (ps.flatten ++ (List.replicate m mark).flatten).Perm t := by
  induction h with
  | whole _ => exact ⟨0, rfl, by simp⟩
  | @cut before after ps _ _ ih =>
    obtain ⟨m, hlen, hperm⟩ := ih
    refine ⟨m + 1, by rw [List.length_cons, hlen], ?_⟩
    rw [List.flatten_cons, List.replicate_succ, List.flatten_cons, List.append_assoc,
      List.append_assoc]
    refine List.Perm.append_left before ?_
    rw [← List.append_assoc]
    refine (List.perm_append_comm.append_right _).trans ?_
    rw [List.append_assoc]
    exact hperm.append_left mark

/-- The elements at the positions whose remainder by two is `k`. -/
def atParity {α : Type} (k : Nat) (l : List α) : List α :=
  (l.zipIdx.filter fun x => x.2 % 2 = k).map Prod.fst

theorem everyOther_cons {α : Type} (a : α) (l : List α) :
    everyOther (a :: l) = a :: everyOther l.tail := by
  cases l <;> rfl

theorem map_filter_zipIdx {α : Type} (l : List α) (n : Nat) :
    ((l.zipIdx n).filter fun x => x.2 % 2 = n % 2).map Prod.fst = everyOther l := by
  fun_induction everyOther l generalizing n with
  | case1 => rfl
  | case2 a => simp
  | case3 a b l ih =>
    have hodd : (n + 1) % 2 ≠ n % 2 := by omega
    have heven : n % 2 = (n + 2) % 2 := by omega
    rw [List.zipIdx_cons, List.zipIdx_cons, List.filter_cons_of_pos (by simp),
      List.filter_cons_of_neg (by simpa using hodd), List.map_cons, heven, ih]

theorem atParity_zero {α : Type} (l : List α) : atParity 0 l = everyOther l :=
  map_filter_zipIdx l 0

theorem atParity_one {α : Type} (l : List α) : atParity 1 l = everyOther l.tail := by
  cases l with
  | nil => rfl
  | cons a l =>
    rw [atParity, List.zipIdx_cons, List.filter_cons_of_neg (by simp)]
    exact map_filter_zipIdx l 1

theorem perm_everyOther {α : Type} (l : List α) : (everyOther l ++ everyOther l.tail).Perm l := by
  induction l with
  | nil => exact .refl _
  | cons a l ih =>
    rw [everyOther_cons, List.tail_cons, List.cons_append]
    exact (List.perm_append_comm.trans ih).cons a

theorem everyOther_subset {α : Type} (l : List α) : everyOther l ⊆ l := by
  intro a ha
  exact (perm_everyOther l).subset (List.mem_append_left _ ha)

theorem pieces_mark_append (hm : mark ≠ []) (t : Text) :
    pieces mark (mark ++ t) = [] :: pieces mark t := by
  have hc : cut? mark ([] ++ mark ++ t) = some ([], t) :=
    cut?_of_first hm fun _ _ _ => Nat.zero_le _
  exact pieces_of_cut? hc

/-- A mark in front makes what was kept a group, and what was a group kept. -/
theorem removeGroups_mark_append (hm : mark ≠ []) (t : Text) :
    removeGroups mark (mark ++ t) = (everyOther (pieces mark t).tail).flatten := by
  rw [removeGroups, pieces_mark_append hm, everyOther_cons, List.flatten_cons, List.nil_append]

theorem perm_removeGroups (hm : mark ≠ []) (t : Text) :
    ∃ m, (pieces mark t).length = m + 1 ∧
      (removeGroups mark t ++ removeGroups mark (mark ++ t) ++
        (List.replicate m mark).flatten).Perm t := by
  obtain ⟨m, hlen, hperm⟩ := (cutsInto_pieces hm t).perm
  refine ⟨m, hlen, .trans (.append_right _ ?_) hperm⟩
  rw [removeGroups_mark_append hm, removeGroups, ← List.flatten_append]
  exact (perm_everyOther _).flatten

theorem notMem_removeGroups (c : Char) (t : Text) : c ∉ removeGroups [c] t := by
  intro h
  obtain ⟨p, hp, hc⟩ := List.mem_flatten.mp h
  have hfree := not_infix_of_mem_pieces (by simp) (everyOther_subset _ hp)
  rw [List.singleton_infix_iff] at hfree
  exact hfree hc

theorem removeGroups_of_notMem {c : Char} (h : c ∉ t) : removeGroups [c] t = t := by
  rw [removeGroups, pieces_singleton_of_notMem h]
  simp [everyOther]

/-- The pieces of a text are fixed by the mark. Removing groups keeps the first of them, the third and
so on; with a mark in front of the text it keeps the others. Together with the marks these make up
the text. Where the mark is one character, none of it is left, and nothing is removed again. -/
theorem removeGroups_keeps_every_other (hm : mark ≠ []) (t : Text) :
    ∃ (ps : List Text) (m : Nat),
      (∀ qs, CutsInto mark t qs ↔ qs = ps) ∧ ps.length = m + 1 ∧ t = mark.intercalate ps ∧
      removeGroups mark t = (atParity 0 ps).flatten ∧
      removeGroups mark (mark ++ t) = (atParity 1 ps).flatten ∧
      (removeGroups mark t).length + (removeGroups mark (mark ++ t)).length + m * mark.length =
        t.length ∧
      byteSize (removeGroups mark t) + byteSize (removeGroups mark (mark ++ t)) +
        m * byteSize mark = byteSize t ∧
      ∀ c, mark = [c] → c ∉ removeGroups mark t ∧
        removeGroups mark (removeGroups mark t) = removeGroups mark t := by
  obtain ⟨m, hlen, hperm⟩ := perm_removeGroups hm t
  refine ⟨pieces mark t, m, fun _ => cutsInto_iff hm, hlen,
    (cutsInto_pieces hm t).eq_intercalate, ?_, ?_, ?_, ?_, ?_⟩
  · rw [atParity_zero, removeGroups]
  · rw [atParity_one, removeGroups_mark_append hm]
  · simpa [Nat.add_assoc] using hperm.length_eq
  · simpa [Nat.add_assoc] using byteSize_of_perm hperm
  · rintro c rfl
    exact ⟨notMem_removeGroups c t, removeGroups_of_notMem (notMem_removeGroups c t)⟩

theorem removeGroups_keeps_every_other_unclosed :
    ['|'] ≠ [] ∧ ∃ ps m, CutsInto ['|'] ['a', '|', 'b', '|', 'c', '|', 'd'] ps ∧
      ps.length = m + 1 ∧
      removeGroups ['|'] ['a', '|', 'b', '|', 'c', '|', 'd'] = (atParity 0 ps).flatten ∧
      '|' ∉ removeGroups ['|'] ['a', '|', 'b', '|', 'c', '|', 'd'] := by
  refine ⟨by simp, ?_⟩
  obtain ⟨ps, m, hps, hlen, -, hkept, -, -, -, hone⟩ :=
    removeGroups_keeps_every_other (List.cons_ne_nil '|' []) ['a', '|', 'b', '|', 'c', '|', 'd']
  exact ⟨ps, m, (hps ps).mpr rfl, hlen, hkept, (hone '|' rfl).1⟩

end IndentMarkup.Text
