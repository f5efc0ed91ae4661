import Mathlib.Data.List.DropRight
import Mathlib.Data.List.TakeWhile
import IndentMarkup.Text.Blank

/-! Trimming: what it leaves, and when it changes nothing. -/
namespace IndentMarkup.Text

theorem takeWhile_append_of_stop {p : Char → Bool} {body rest : Text}
    (hb : ∀ c ∈ body, p c = true) (hr : ∀ c ∈ rest.head?, p c = false) :
    (body ++ rest).takeWhile p = body := by
  rw [List.takeWhile_append_of_pos hb]
  cases rest with
  | nil => simp
  | cons c rest => simp [hr c (by simp)]

theorem dropWhile_append_of_stop {p : Char → Bool} {body rest : Text}
    (hb : ∀ c ∈ body, p c = true) (hr : ∀ c ∈ rest.head?, p c = false) :
    (body ++ rest).dropWhile p = rest := by
  rw [List.dropWhile_append_of_pos hb]
  cases rest with
  | nil => simp
  | cons c rest => simp [hr c (by simp)]

theorem isBlank_of_isInlineBlank {c : Char} (h : isInlineBlank c = true) : isBlank c = true := by
  have hc : c = ' ' ∨ c = '\t' := by simpa [isInlineBlank] using h
  rcases hc with rfl | rfl <;> decide

theorem isInlineBlank_space : ∀ c ∈ [' '], isInlineBlank c = true := by
  simp [isInlineBlank]

theorem isBlank_space : ∀ c ∈ [' '], isBlank c = true := fun c hc =>
  isBlank_of_isInlineBlank (isInlineBlank_space c hc)

theorem isInlineBlank_of_not_isBlank {c : Char} (h : isBlank c = false) :
    isInlineBlank c = false := by
  by_contra hc
  have := isBlank_of_isInlineBlank (by simpa using hc)
  simp [h] at this

theorem trimEnd_isPrefix (t : Text) : trimEnd t <+: t :=
  List.rdropWhile_prefix isBlank t

theorem trim_isInfix (t : Text) : trim t <:+: t :=
  (trimEnd_isPrefix _).isInfix.trans (List.dropWhile_suffix isBlank).isInfix

theorem trim_subset (t : Text) : trim t ⊆ t :=
  (trim_isInfix t).subset

theorem trimEnd_subset (t : Text) : trimEnd t ⊆ t :=
  (trimEnd_isPrefix t).subset

theorem firstWord_subset (t : Text) : firstWord t ⊆ t :=
  List.Subset.trans (List.takeWhile_subset _) (trim_subset t)

theorem trimStart_blank_append {w : Text} (hw : ∀ c ∈ w, isBlank c = true) (t : Text) :
    trimStart (w ++ t) = trimStart t :=
  List.dropWhile_append_of_pos hw

theorem trim_blank_append {w : Text} (hw : ∀ c ∈ w, isBlank c = true) (t : Text) :
    trim (w ++ t) = trim t := by
  rw [trim, trimStart_blank_append hw, trim]

theorem trimEnd_append_blank {w : Text} (hw : ∀ c ∈ w, isBlank c = true) (t : Text) :
    trimEnd (t ++ w) = trimEnd t := by
  have hr : ∀ c ∈ w.reverse, isBlank c = true := fun c hc => hw c (List.mem_reverse.mp hc)
  rw [trimEnd, List.reverse_append, List.dropWhile_append_of_pos hr, trimEnd]

theorem trimEnd_cons {c : Char} (hc : isBlank c = false) (t : Text) :
    trimEnd (c :: t) = c :: trimEnd t := by
  have hd : (t.reverse ++ [c]).dropWhile isBlank = t.reverse.dropWhile isBlank ++ [c] := by
    rw [List.dropWhile_append]
    split_ifs with ht
    · rw [List.isEmpty_iff.mp ht]
      simp [hc]
    · rfl
  rw [trimEnd, List.reverse_cons, hd, List.reverse_append]
  rfl

theorem trim_append_blank {w : Text} (hw : ∀ c ∈ w, isBlank c = true) (t : Text) :
    trim (t ++ w) = trim t := by
  unfold trim trimStart
  rw [List.dropWhile_append]
  split_ifs with ht
  · rw [List.isEmpty_iff.mp ht, List.dropWhile_eq_nil_iff.mpr hw]
  · exact trimEnd_append_blank hw _

theorem trimStart_eq_self {t : Text} (h : ∀ c ∈ t.head?, isBlank c = false) : trimStart t = t := by
  cases t with
  | nil => rfl
  | cons c t => simp [trimStart, h c (by simp)]

theorem trimEnd_eq_self {t : Text} (h : ∀ c ∈ t.getLast?, isBlank c = false) : trimEnd t = t := by
  have hr : t.reverse.dropWhile isBlank = t.reverse :=
    trimStart_eq_self (t := t.reverse) (by simpa using h)
  rw [trimEnd, hr, List.reverse_reverse]

/-- A text that neither starts nor ends with a blank is trimmed already. -/
theorem trim_eq_self {t : Text} (hs : ∀ c ∈ t.head?, isBlank c = false)
    (he : ∀ c ∈ t.getLast?, isBlank c = false) : trim t = t := by
  rw [trim, trimStart_eq_self hs, trimEnd_eq_self he]

theorem trimEnd_of_trim_eq_self {t : Text} (h : trim t = t) : trimEnd t = t := by
  have hs : (trimStart t).length ≤ t.length := (List.dropWhile_suffix isBlank).length_le
  have ht : (trimEnd (trimStart t)).length ≤ (trimStart t).length := (trimEnd_isPrefix _).length_le
  have hl : t.length = (trimEnd (trimStart t)).length := congrArg List.length h.symm
  have he : trimStart t = t :=
    (List.dropWhile_suffix isBlank).eq_of_length (show (trimStart t).length = t.length by omega)
  simpa [trim, he] using h

theorem getLast_of_trimEnd_eq_self {t : Text} (h : trimEnd t = t) :
    ∀ c ∈ t.getLast?, isBlank c = false := by
  intro c hc
  have hne : t ≠ [] := by
    rintro rfl
    simp at hc
  have hl := List.rdropWhile_eq_self_iff.mp (show List.rdropWhile isBlank t = t from h) hne
  rw [List.getLast?_eq_some_getLast hne] at hc
  obtain rfl := Option.some.inj hc
  simpa using hl

theorem head_trim (t : Text) : ∀ c ∈ (trim t).head?, isBlank c = false := by
  intro c hc
  obtain ⟨rest, hr⟩ := trimEnd_isPrefix (trimStart t)
  have hs : (trimStart t).head? = some c := by
    rw [← hr, List.head?_append, show (trimEnd (trimStart t)).head? = some c from hc]
    rfl
  have hd := List.head?_dropWhile_not isBlank t
  rw [show (t.dropWhile isBlank).head? = some c from hs] at hd
  exact hd

theorem trimEnd_trimEnd (t : Text) : trimEnd (trimEnd t) = trimEnd t :=
  List.rdropWhile_idempotent isBlank t

theorem getLast_trim (t : Text) : ∀ c ∈ (trim t).getLast?, isBlank c = false :=
  getLast_of_trimEnd_eq_self (trimEnd_trimEnd (trimStart t))

@[simp] theorem trim_trim (t : Text) : trim (trim t) = trim t :=
  trim_eq_self (head_trim t) (getLast_trim t)

theorem getLast_append {a b : Text} (ha : ∀ c ∈ a.getLast?, isBlank c = false)
    (hb : ∀ c ∈ b.getLast?, isBlank c = false) : ∀ c ∈ (a ++ b).getLast?, isBlank c = false := by
  intro c hc
  rw [List.getLast?_append] at hc
  cases h : b.getLast? with
  | none => exact ha c (by simpa [h] using hc)
  | some d =>
    obtain rfl : d = c := by simpa [h] using hc
    exact hb d h

/-- Blanks behind a trimmed text are trimmed away. -/
theorem trimEnd_append_of_trim_eq_self {t w : Text} (ht : trim t = t)
    (hw : ∀ c ∈ w, isBlank c = true) : trimEnd (t ++ w) = t := by
  rw [trimEnd_append_blank hw, trimEnd_of_trim_eq_self ht]

/-- What stands in front of a character that is not blank is out of reach for trimming at the end. -/
theorem trimEnd_append_cons {c : Char} (hc : isBlank c = false) (front back : Text) :
    trimEnd (front ++ c :: back) = front ++ c :: trimEnd back := by
  have hd : (back.reverse ++ [c]).dropWhile isBlank = back.reverse.dropWhile isBlank ++ [c] := by
    have := congrArg List.reverse (trimEnd_cons hc back)
    simpa [trimEnd] using this
  have hne : (back.reverse ++ [c]).dropWhile isBlank ≠ [] := by simp [hd]
  rw [trimEnd, List.reverse_append, List.reverse_cons, List.dropWhile_append,
    if_neg (by simpa using hne), hd]
  simp [trimEnd]

theorem trimStart_append_cons {c : Char} (hc : isBlank c = false) (front back : Text) :
    trimStart (front ++ c :: back) = trimStart front ++ c :: back := by
  unfold trimStart
  rw [List.dropWhile_append]
  split_ifs with hf
  · rw [List.isEmpty_iff.mp hf]
    simp [hc]
  · rfl

/-- Trimming leaves a character that is not blank, and trims the two sides of it apart. -/
theorem trim_append_cons {c : Char} (hc : isBlank c = false) (front back : Text) :
    trim (front ++ c :: back) = trimStart front ++ c :: trimEnd back := by
  rw [trim, trimStart_append_cons hc, trimEnd_append_cons hc]

/-- A text that is trimmed itself ends what it stands at the end of, trimmed or not. -/
theorem getLast?_trim_append (front : Text) {t : Text} (h : trim t ≠ []) :
    (trim (front ++ trim t)).getLast? = (trim t).getLast? := by
  obtain ⟨text, c, ht⟩ : ∃ text c, trim t = text ++ [c] :=
    (List.eq_nil_or_concat' (trim t)).resolve_left h
  have hc : isBlank c = false := getLast_trim t c (by simp [ht])
  have hsplit : front ++ trim t = (front ++ text) ++ c :: [] := by simp [ht]
  have htrim : trim (front ++ trim t) = trimStart (front ++ text) ++ [c] := by
    rw [hsplit, trim_append_cons hc]
    rfl
  rw [htrim, ht, List.getLast?_concat, List.getLast?_concat]

theorem trimStart_subset (t : Text) : trimStart t ⊆ t :=
  (List.dropWhile_suffix isBlank).subset

theorem trim_trimStart (t : Text) : trim (trimStart t) = trim t := by
  have h : trimStart (trimStart t) = trimStart t := List.dropWhile_idempotent isBlank t
  rw [trim, h, trim]

theorem count_trimStart {c : Char} (hc : isBlank c = false) (t : Text) :
    (trimStart t).count c = t.count c := by
  have hb : c ∉ t.takeWhile isBlank := by
    intro hm
    have := List.mem_takeWhile_imp hm
    simp [hc] at this
  have hs : t.takeWhile isBlank ++ trimStart t = t := List.takeWhile_append_dropWhile
  have hcount := congrArg (List.count c) hs
  rw [List.count_append, List.count_eq_zero.mpr hb, Nat.zero_add] at hcount
  exact hcount

theorem count_trimEnd {c : Char} (hc : isBlank c = false) (t : Text) :
    (trimEnd t).count c = t.count c := by
  have hr := count_trimStart hc t.reverse
  rwa [← List.count_reverse, List.count_reverse (l := t)] at hr

/-- Trimming takes away blanks only. -/
theorem count_trim {c : Char} (hc : isBlank c = false) (t : Text) :
    (trim t).count c = t.count c := by
  rw [trim, count_trimEnd hc, count_trimStart hc]

theorem mem_trimEnd_iff {c : Char} (hc : isBlank c = false) {t : Text} :
    c ∈ trimEnd t ↔ c ∈ t := by
  rw [← List.count_pos_iff, count_trimEnd hc, List.count_pos_iff]

theorem leadingBlanks_append {w t : Text} (hw : ∀ c ∈ w, isInlineBlank c = true)
    (ht : ∀ c ∈ t.head?, isInlineBlank c = false) : leadingBlanks (w ++ t) = w :=
  takeWhile_append_of_stop hw ht

end IndentMarkup.Text
