import Mathlib.Order.Bounds.Basic
import IndentMarkup.Markup.Indentation
import IndentMarkup.Proofs.Text.Cut
import IndentMarkup.Proofs.Text.Trim

/-! Levels are maximal counts of units. The first indented text of a sequence sets the unit, and all
texts from there on are measured by it. -/
namespace IndentMarkup.Indentation
open Text

variable {unit t : Text}

/-- No more copies of the unit stand at the front of a text than are counted. -/
theorem isGreatest_copies (hu : unit ≠ []) (t : Text) :
    IsGreatest {k | (List.replicate k unit).flatten <+: t} (copies unit t) := by
  fun_induction copies unit t with
  | case1 t hs =>
    refine ⟨List.nil_prefix, fun k (hk : (List.replicate k unit).flatten <+: t) => ?_⟩
    cases k with
    | zero => exact le_rfl
    | succ k =>
      rw [List.replicate_succ, List.flatten_cons] at hk
      have hp : unit <+: t := (List.prefix_append _ _).trans hk
      exact absurd hp ((skipMark?_eq_none_iff hu).mp hs)
  | case2 t rest hs ih =>
    obtain ⟨-, rfl⟩ := eq_of_skipMark? hs
    have hsucc : ∀ k, (List.replicate (k + 1) unit).flatten <+: unit ++ rest ↔
        (List.replicate k unit).flatten <+: rest := by
      intro k
      rw [List.replicate_succ, List.flatten_cons, List.prefix_append_right_inj]
    refine ⟨(hsucc _).mpr ih.1, fun k hk => ?_⟩
    cases k with
    | zero => exact Nat.zero_le _
    | succ k => exact Nat.succ_le_succ (ih.2 ((hsucc k).mp hk))

theorem flatten_replicate_prefix_iff {u : Text} (hu : u ≠ []) {j k : Nat} :
    (List.replicate j u).flatten <+: (List.replicate k u).flatten ↔ j ≤ k := by
  constructor
  · intro h
    have hlen : ∀ n, (List.replicate n u).flatten.length = n * u.length := by simp
    have hl := h.length_le
    rw [hlen, hlen] at hl
    exact Nat.le_of_mul_le_mul_right hl (List.length_pos_iff.mpr hu)
  · intro h
    obtain ⟨n, rfl⟩ := Nat.exists_eq_add_of_le h
    rw [List.replicate_add, List.flatten_append]
    exact List.prefix_append _ _

/-- A unit of `m` copies goes `k / m` times into `k` copies; what is left over does not count. -/
theorem copies_flatten_replicate {u : Text} (hu : u ≠ []) {m : Nat} (hm : 0 < m) (k : Nat) :
    copies (List.replicate m u).flatten (List.replicate k u).flatten = k / m := by
  have hne : (List.replicate m u).flatten ≠ [] := by simp [hu, hm.ne']
  have hmul : ∀ j, (List.replicate j (List.replicate m u).flatten).flatten =
      (List.replicate (j * m) u).flatten := by
    intro j
    rw [← List.flatten_replicate_replicate, List.flatten_flatten, List.map_replicate]
  have hfits : ∀ j, (List.replicate j (List.replicate m u).flatten).flatten <+:
      (List.replicate k u).flatten ↔ j ≤ k / m := by
    intro j
    rw [hmul, flatten_replicate_prefix_iff hu, Nat.le_div_iff_mul_le hm]
  exact (isGreatest_copies hne _).unique ⟨(hfits _).mpr le_rfl, fun j hj => (hfits j).mp hj⟩

theorem copies_replicate (h : unit ≠ []) (n : Nat) :
    copies unit (List.replicate n unit).flatten = n := by
  simpa using copies_flatten_replicate h Nat.one_pos n

theorem isInlineBlank_indent (h : ∀ c ∈ unit, isInlineBlank c = true) (n : Nat) :
    ∀ c ∈ (List.replicate n unit).flatten, isInlineBlank c = true := by
  intro c hc
  obtain ⟨u, hu, hc⟩ := List.mem_flatten.mp hc
  exact h c (List.eq_of_mem_replicate hu ▸ hc)

/-- A text leaves the unit as it is, or sets it if there is none. -/
theorem levelOf_snd (i : Indentation) (t : Text) :
    (i.levelOf t).2 = if i.unit = [] then ⟨t.leadingBlanks⟩ else i := by
  obtain ⟨unit⟩ := i
  by_cases hu : unit = [] <;> by_cases hb : t.leadingBlanks = [] <;> simp [levelOf, hu, hb]

theorem level_of_not_indented (i : Indentation) (h : t.leadingBlanks = []) :
    (i.levelOf t).1 = 0 := by
  simp [levelOf, h]

/-- The level of an indented text is the greatest number of units that it starts with. -/
theorem isGreatest_level (i : Indentation) (h : t.leadingBlanks ≠ []) :
    IsGreatest {k | (List.replicate k (i.levelOf t).2.unit).flatten <+: t.leadingBlanks}
      (i.levelOf t).1 := by
  rw [levelOf_snd]
  by_cases hi : i.unit = []
  · have hlevel : (i.levelOf t).1 = copies t.leadingBlanks t.leadingBlanks := by
      have hone : copies t.leadingBlanks t.leadingBlanks = 1 := by
        simpa using copies_replicate h 1
      simp [levelOf, h, hi, hone]
    rw [if_pos hi, hlevel]
    exact isGreatest_copies h _
  · have hlevel : (i.levelOf t).1 = copies i.unit t.leadingBlanks := by
      simp [levelOf, h, hi]
    rw [if_neg hi, hlevel]
    exact isGreatest_copies hi _

/-- The indentation after the levels of some texts were taken, in order. -/
def after (i : Indentation) (texts : List Text) : Indentation :=
  texts.foldl (fun i t => (i.levelOf t).2) i

/-- The first indentation among some texts, empty if none of them is indented. -/
def firstIndent (texts : List Text) : Text :=
  ((texts.map leadingBlanks).find? (· ≠ [])).getD []

theorem firstIndent_cons (t : Text) (texts : List Text) :
    firstIndent (t :: texts) =
      if t.leadingBlanks = [] then firstIndent texts else t.leadingBlanks := by
  unfold firstIndent
  by_cases h : t.leadingBlanks = [] <;> simp [h]

theorem unit_after (i : Indentation) (texts : List Text) :
    (i.after texts).unit = if i.unit = [] then firstIndent texts else i.unit := by
  induction texts generalizing i with
  | nil => by_cases hi : i.unit = [] <;> simp [after, firstIndent, hi]
  | cons t texts ih =>
    change ((i.levelOf t).2.after texts).unit = _
    rw [ih, levelOf_snd, firstIndent_cons]
    by_cases hi : i.unit = [] <;> simp [hi]

/-- Whatever texts were measured before, the unit is the one that was preset or else the first
indentation among them. A text that is not indented is at level 0; the level of any other is the
greatest number of units, as they are once its level is taken, that its indentation starts with. -/
theorem level_counts_units (i : Indentation) (past : List Text) (t : Text) :
    (i.after past).unit = (if i.unit = [] then firstIndent past else i.unit) ∧
      if t.leadingBlanks = [] then ((i.after past).levelOf t).1 = 0
      else IsGreatest
        {k | (List.replicate k (i.after (past ++ [t])).unit).flatten <+: t.leadingBlanks}
        ((i.after past).levelOf t).1 := by
  have hnext : i.after (past ++ [t]) = ((i.after past).levelOf t).2 := List.foldl_concat ..
  refine ⟨unit_after i past, ?_⟩
  split_ifs with h
  · exact level_of_not_indented _ h
  · rw [hnext]
    exact isGreatest_level _ h

end IndentMarkup.Indentation
