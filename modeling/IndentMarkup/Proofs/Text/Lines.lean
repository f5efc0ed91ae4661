import Mathlib.Data.List.Forall2
import IndentMarkup.Proofs.Text.Cut
import IndentMarkup.Proofs.Text.Trim

/-! The lines of a text. A line feed ends a line; the last line may end with the text instead. -/
namespace IndentMarkup.Text

/-- The lines of a text, without their line feeds. -/
def lines : Text → List Text
  | [] => []
  | c :: t =>
    if c = '\n' then [] :: lines t
    else match lines t with
      | [] => [[c]]
      | line :: more => (c :: line) :: more

@[simp] theorem lines_nil : lines [] = [] := rfl

@[simp] theorem lines_newline_cons (t : Text) : lines ('\n' :: t) = [] :: lines t := rfl

theorem lines_cons_of_ne {c : Char} {t line : Text} {more : List Text} (hc : c ≠ '\n')
    (h : lines t = line :: more) : lines (c :: t) = (c :: line) :: more := by
  rw [lines, if_neg hc, h]

theorem lines_eq_nil_iff {t : Text} : lines t = [] ↔ t = [] := by
  cases t with
  | nil => simp
  | cons c t =>
    rw [lines]
    split
    · simp
    · split <;> simp

/-- A line that a line feed ends. -/
theorem lines_append_newline {line : Text} (h : '\n' ∉ line) (rest : Text) :
    lines (line ++ '\n' :: rest) = line :: lines rest := by
  induction line with
  | nil => rfl
  | cons c line ih =>
    obtain ⟨hc, hl⟩ : '\n' ≠ c ∧ '\n' ∉ line := by simpa using h
    exact lines_cons_of_ne (Ne.symm hc) (ih hl)

/-- A line that ends with the text. -/
theorem lines_of_no_newline {line : Text} (h : '\n' ∉ line) (hne : line ≠ []) :
    lines line = [line] := by
  induction line with
  | nil => exact absurd rfl hne
  | cons c line ih =>
    obtain ⟨hc, hl⟩ : '\n' ≠ c ∧ '\n' ∉ line := by simpa using h
    cases line with
    | nil => rw [lines, if_neg (Ne.symm hc), lines_nil]
    | cons d line => exact lines_cons_of_ne (Ne.symm hc) (ih hl (by simp))

/-- Induction on the lines of a text. -/
@[elab_as_elim]
theorem lines_induction {P : Text → Prop} (last : ∀ line, '\n' ∉ line → P line)
    (line : ∀ line rest, '\n' ∉ line → P rest → P (line ++ '\n' :: rest)) (t : Text) : P t := by
  by_cases h : '\n' ∈ t
  · obtain ⟨first, rest, ht, hf⟩ := List.eq_append_cons_of_mem h
    exact ht ▸ line first rest hf (lines_induction last line rest)
  · exact last t h
termination_by t.length
decreasing_by
  simp only [ht, List.length_append, List.length_cons]
  omega

/-- The lines of a text are the first of its pieces between line feeds. Behind a line feed that ends
the text there is an empty piece, and no line. -/
theorem lines_prefix_pieces (t : Text) : lines t <+: pieces ['\n'] t := by
  induction t using lines_induction with
  | last line h =>
    rw [pieces_singleton_of_notMem h]
    by_cases hz : line = []
    · simp [hz]
    · rw [lines_of_no_newline h hz]
  | line line rest h ih =>
    rw [lines_append_newline h, pieces_singleton_append h]
    exact List.cons_prefix_cons.mpr ⟨rfl, ih⟩

theorem newline_notMem_takeWhile (t : Text) : '\n' ∉ t.takeWhile (· != '\n') := by
  intro h
  have := List.mem_takeWhile_imp h
  simp at this

/-- Taking the first line off a text. -/
theorem lines_eq_cons {t : Text} (h : t ≠ []) :
    lines t = t.takeWhile (· != '\n') :: lines ((t.dropWhile (· != '\n')).drop 1) := by
  have hn := newline_notMem_takeWhile t
  have ht : t.takeWhile (· != '\n') ++ t.dropWhile (· != '\n') = t :=
    List.takeWhile_append_dropWhile
  cases hd : t.dropWhile (· != '\n') with
  | nil =>
    rw [hd, List.append_nil] at ht
    rw [ht] at hn ⊢
    simpa using lines_of_no_newline hn h
  | cons c rest =>
    have hc : c = '\n' := by
      have := List.head?_dropWhile_not (· != '\n') t
      simpa [hd] using this
    subst hc
    rw [hd] at ht
    conv_lhs => rw [← ht]
    simpa using lines_append_newline hn rest

/-- Behind a line feed, a new line starts. -/
theorem lines_append {front : Text} (h : front = [] ∨ front.getLast? = some '\n') (back : Text) :
    lines (front ++ back) = lines front ++ lines back := by
  induction front with
  | nil => rfl
  | cons c front ih =>
    cases front with
    | nil =>
      obtain rfl : c = '\n' := by simpa using h
      rfl
    | cons d front =>
      have hl := ih (.inr (by simpa using h))
      obtain ⟨line, more, hm⟩ : ∃ line more, lines (d :: front) = line :: more :=
        List.exists_cons_of_ne_nil (by simp [lines_eq_nil_iff])
      rw [hm] at hl
      by_cases hc : c = '\n'
      · subst hc
        simpa [hm] using hl
      · rw [lines_cons_of_ne hc hm]
        exact lines_cons_of_ne hc hl

/-- Lines that line feeds end, and what follows them. -/
theorem lines_flatMap_append {ls : List Text} (h : ∀ l ∈ ls, '\n' ∉ l) (rest : Text) :
    lines (ls.flatMap (· ++ ['\n']) ++ rest) = ls ++ lines rest := by
  induction ls with
  | nil => rfl
  | cons l ls ih =>
    have hl : '\n' ∉ l := h l List.mem_cons_self
    have hls : ∀ l ∈ ls, '\n' ∉ l := fun l hm => h l (List.mem_cons_of_mem _ hm)
    simp only [List.flatMap_cons, List.append_assoc, List.cons_append, List.nil_append]
    rw [lines_append_newline hl, ih hls]

/-- There is a line for every line feed, and one more if something stands behind the last. -/
theorem length_lines (t : Text) :
    (lines t).length = t.count '\n' + if t = [] ∨ t.getLast? = some '\n' then 0 else 1 := by
  induction t using lines_induction with
  | last t h =>
    by_cases ht : t = []
    · simp [ht]
    · have hl : t.getLast? ≠ some '\n' := fun hm => h (List.mem_of_getLast? hm)
      rw [lines_of_no_newline h ht, List.count_eq_zero.mpr h]
      simp [ht, hl]
  | line line rest h ih =>
    have hc : (line ++ '\n' :: rest).count '\n' = rest.count '\n' + 1 := by
      rw [List.count_append, List.count_eq_zero.mpr h, List.count_cons_self, Nat.zero_add]
    have hl : (line ++ '\n' :: rest).getLast? = some '\n' ↔
        rest = [] ∨ rest.getLast? = some '\n' := by
      rw [List.getLast?_append_of_ne_nil line (List.cons_ne_nil '\n' rest), List.getLast?_cons]
      cases hr : rest.getLast? with
      | none => simp [List.getLast?_eq_none_iff.mp hr]
      | some c =>
        have hne : rest ≠ [] := by
          rintro rfl
          simp at hr
        simp [hne]
    rw [lines_append_newline h, List.length_cons, ih, hc]
    simp only [hl, List.append_eq_nil_iff, reduceCtorEq, and_false, false_or]
    omega

/-- Texts joined by line feeds are the lines of the result, up to an empty one at the end. -/
theorem forall₂_lines_intercalate {R : Text → Text → Prop} {ls ls' : List Text}
    (h : List.Forall₂ R ls ls') (he : ∀ l l', R l l' → (l = [] ↔ l' = []))
    (hn : ∀ l l', R l l' → '\n' ∉ l ∧ '\n' ∉ l') :
    List.Forall₂ R (lines (['\n'].intercalate ls)) (lines (['\n'].intercalate ls')) := by
  induction h with
  | nil => exact .nil
  | @cons l l' more more' hl hm ih =>
    obtain ⟨hln, hln'⟩ := hn l l' hl
    cases hm with
    | nil =>
      rw [List.intercalate_singleton, List.intercalate_singleton]
      by_cases hz : l = []
      · obtain rfl := (he l l' hl).mp hz
        subst hz
        exact .nil
      · rw [lines_of_no_newline hln hz, lines_of_no_newline hln' (mt (he l l' hl).mpr hz)]
        exact .cons hl .nil
    | cons hk hm =>
      rw [List.intercalate_cons_cons, List.intercalate_cons_cons]
      simp only [List.append_assoc, List.singleton_append]
      rw [lines_append_newline hln, lines_append_newline hln']
      exact .cons hl ih

theorem leadingBlanks_takeWhile (t : Text) :
    leadingBlanks (t.takeWhile (· != '\n')) = leadingBlanks t := by
  unfold leadingBlanks
  induction t with
  | nil => rfl
  | cons c t ih =>
    by_cases hc : c = '\n'
    · subst hc
      rfl
    · by_cases hb : isInlineBlank c = true
      · simp [hc, hb, ih]
      · simp [hc, hb]

/-- A text is indented as its first line is. -/
theorem leadingBlanks_of_lines {t line : Text} {more : List Text} (h : lines t = line :: more) :
    leadingBlanks line = leadingBlanks t := by
  have hne : t ≠ [] := by
    rintro rfl
    simp at h
  obtain ⟨rfl, -⟩ := List.cons.inj (h.symm.trans (lines_eq_cons hne))
  exact leadingBlanks_takeWhile t

end IndentMarkup.Text
