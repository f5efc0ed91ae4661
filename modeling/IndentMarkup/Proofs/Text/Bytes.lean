import IndentMarkup.Proofs.Text.Trim
import IndentMarkup.Text.Bytes

/-! Byte positions. A text is cut at the position that its front takes up, and nowhere else. -/
namespace IndentMarkup.Text

@[simp] theorem byteSize_nil : byteSize [] = 0 := rfl

@[simp] theorem byteSize_cons (c : Char) (t : Text) : byteSize (c :: t) = c.utf8Size + byteSize t :=
  rfl

@[simp] theorem byteSize_append (a b : Text) : byteSize (a ++ b) = byteSize a + byteSize b := by
  induction a with
  | nil => simp
  | cons c a ih => simp [ih, Nat.add_assoc]

theorem byteSize_of_perm {a b : Text} (h : a.Perm b) : byteSize a = byteSize b := by
  induction h with
  | nil => rfl
  | cons c _ ih => rw [byteSize_cons, byteSize_cons, ih]
  | swap c d t =>
    simp only [byteSize_cons]
    omega
  | trans _ _ hab hbc => exact hab.trans hbc

@[simp] theorem byteSize_flatten_replicate (n : Nat) (t : Text) :
    byteSize (List.replicate n t).flatten = n * byteSize t := by
  induction n with
  | zero => simp
  | succ n ih =>
    rw [List.replicate_succ, List.flatten_cons, byteSize_append, ih, Nat.succ_mul, Nat.add_comm]

theorem byteSize_pos_iff {t : Text} : 0 < byteSize t ↔ t ≠ [] := by
  cases t with
  | nil => simp
  | cons c t => simp [Nat.add_pos_left c.utf8Size_pos]

theorem dropBytes?_cons (c : Char) (n : Nat) (t : Text) :
    dropBytes? (c.utf8Size + n) (c :: t) = dropBytes? n t := by
  obtain ⟨k, hk⟩ := Nat.exists_eq_add_one.mpr (Nat.add_pos_left c.utf8Size_pos n)
  rw [hk, dropBytes?, ← hk, if_pos (Nat.le_add_right _ _), Nat.add_sub_cancel_left]

theorem takeBytes?_cons (c : Char) (n : Nat) (t : Text) :
    takeBytes? (c.utf8Size + n) (c :: t) = (takeBytes? n t).map (c :: ·) := by
  obtain ⟨k, hk⟩ := Nat.exists_eq_add_one.mpr (Nat.add_pos_left c.utf8Size_pos n)
  rw [hk, takeBytes?, ← hk, if_pos (Nat.le_add_right _ _), Nat.add_sub_cancel_left]

theorem dropBytes?_append (front rest : Text) :
    dropBytes? (byteSize front) (front ++ rest) = some rest := by
  induction front with
  | nil => simp [dropBytes?]
  | cons c front ih => rw [byteSize_cons, List.cons_append, dropBytes?_cons, ih]

theorem takeBytes?_append (front rest : Text) :
    takeBytes? (byteSize front) (front ++ rest) = some front := by
  induction front with
  | nil => simp [takeBytes?]
  | cons c front ih =>
    rw [byteSize_cons, List.cons_append, takeBytes?_cons, ih]
    rfl

theorem slice?_append (front body rest : Text) :
    slice? (byteSize front) (byteSize front + byteSize body) (front ++ (body ++ rest)) =
      some body := by
  rw [slice?, dropBytes?_append]
  simp [takeBytes?_append]

theorem eq_of_dropBytes? {n : Nat} {t rest : Text} (h : dropBytes? n t = some rest) :
    ∃ front, t = front ++ rest ∧ byteSize front = n := by
  fun_induction dropBytes? n t with
  | case1 t => exact ⟨[], by simpa using h, rfl⟩
  | case2 => simp at h
  | case3 n c t hc ih =>
    obtain ⟨front, rfl, hf⟩ := ih h
    exact ⟨c :: front, rfl, by rw [byteSize_cons, hf]; omega⟩
  | case4 => simp at h

/-- Fronts of one text that take up the same number of bytes are equal. -/
theorem eq_of_byteSize_eq {a b : Text} (h : byteSize a = byteSize b) {x y : Text}
    (ht : a ++ x = b ++ y) : a = b := by
  induction a generalizing b with
  | nil =>
    cases b with
    | nil => rfl
    | cons d b => exact absurd h (byteSize_pos_iff.mpr (List.cons_ne_nil d b)).ne
  | cons c a ih =>
    cases b with
    | nil => exact absurd h (byteSize_pos_iff.mpr (List.cons_ne_nil c a)).ne'
    | cons d b =>
      obtain ⟨rfl, hx⟩ : c = d ∧ a ++ x = b ++ y := by simpa using ht
      rw [ih (by simpa using h) hx]

/-- A position at which a character starts or the text ends. -/
def IsBoundary (t : Text) (n : Nat) : Prop :=
  ∃ front back, t = front ++ back ∧ byteSize front = n

/-- A character of one byte stands right before a position just if the text up to there ends with
it. -/
theorem charAt?_pred_eq_some_iff {c : Char} (hc : c.utf8Size = 1) {front : Text} (hne : front ≠ [])
    (rest : Text) :
    charAt? (byteSize front - 1) (front ++ rest) = some c ↔ front.getLast? = some c := by
  constructor
  · intro h
    obtain ⟨tail, hd, ht⟩ := Option.bind_eq_some_iff.mp h
    obtain ⟨more, rfl⟩ := List.head?_eq_some_iff.mp ht
    obtain ⟨before, he, hb⟩ := eq_of_dropBytes? hd
    have hpos := byteSize_pos_iff.mpr hne
    have hf : front = before ++ [c] :=
      eq_of_byteSize_eq (by simp [hc, hb]; omega) (y := more) (by simpa using he)
    rw [hf, List.getLast?_concat]
  · intro h
    obtain ⟨before, rfl⟩ := List.getLast?_eq_some_iff.mp h
    have hp : byteSize (before ++ [c]) - 1 = byteSize before := by simp [hc]
    rw [hp, List.append_assoc, charAt?, dropBytes?_append]
    rfl

/-- The text without a carriage return at its end. -/
def dropReturn (t : Text) : Text :=
  if t.getLast? = some '\r' then t.dropLast else t

theorem dropReturn_of_return (t : Text) : dropReturn (t ++ ['\r']) = t := by
  simp [dropReturn]

theorem dropReturn_of_ne {t : Text} (h : t.getLast? ≠ some '\r') : dropReturn t = t :=
  if_neg h

/-- The line break behind a line that a line feed ends: a carriage return at the end of the line is
part of it. -/
def lineBreak (line : Text) : Text :=
  if line.getLast? = some '\r' then ['\r', '\n'] else ['\n']

theorem dropReturn_append_lineBreak (line : Text) :
    dropReturn line ++ lineBreak line = line ++ ['\n'] := by
  by_cases h : line.getLast? = some '\r'
  · obtain ⟨body, rfl⟩ := List.getLast?_eq_some_iff.mp h
    simp [dropReturn_of_return, lineBreak]
  · simp [dropReturn_of_ne h, lineBreak, h]

theorem lineBreak_ne_nil (line : Text) : lineBreak line ≠ [] := by
  unfold lineBreak
  split <;> simp

theorem dropReturn_isPrefix (t : Text) : dropReturn t <+: t := by
  unfold dropReturn
  split
  · exact List.dropLast_prefix t
  · exact List.prefix_refl t

/-- A carriage return is blank. -/
theorem trim_dropReturn (t : Text) : trim (dropReturn t) = trim t := by
  by_cases h : t.getLast? = some '\r'
  · obtain ⟨body, rfl⟩ := List.getLast?_eq_some_iff.mp h
    rw [dropReturn_of_return, trim_append_blank (List.forall_mem_singleton.mpr rfl)]
  · rw [dropReturn_of_ne h]

end IndentMarkup.Text
