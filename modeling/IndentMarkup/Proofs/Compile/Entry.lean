import IndentMarkup.Proofs.Compile.Reading

/-! Sources as lists of entries. An entry is what a line says, with the lines that its content takes.
Where a source cannot be read, the entries before the failing line are those of the lines before it.
-/
namespace IndentMarkup.Compile
open Html

/-- What a line of source says. -/
structure Entry where
  /-- The spaces and tabs that it starts with. -/
  blanks : Text
  addition : Addition

/-- The entries of a list of lines that follow a number of other lines. -/
def entries (token : Char) (number : Nat) : List Text → Except CompileError (List Entry)
  | [] => .ok []
  | line :: below =>
    match additionOf token line (number + 1) below with
    | .error e => .error e
    | .ok (addition, k) =>
      (entries token (number + 1 + k) (below.drop k)).map (⟨line.leadingBlanks, addition⟩ :: ·)
termination_by lines => lines.length
decreasing_by
  simp only [List.length_drop, List.length_cons]
  omega

variable {token : Char} {number : Nat}

theorem entries_nil : entries token number [] = .ok [] := by rw [entries]

theorem entries_cons_of_ok {line : Text} {below : List Text} {addition : Addition} {k : Nat}
    (h : additionOf token line (number + 1) below = .ok (addition, k)) :
    entries token number (line :: below) =
      (entries token (number + 1 + k) (below.drop k)).map
        (⟨line.leadingBlanks, addition⟩ :: ·) := by
  rw [entries, h]

theorem entries_cons_of_error {line : Text} {below : List Text} {e : CompileError}
    (h : additionOf token line (number + 1) below = .error e) :
    entries token number (line :: below) = .error e := by
  rw [entries, h]

/-- Lines that can be read are read alike if more lines follow. -/
theorem entries_append {front : List Text} {es : List Entry}
    (h : entries token number front = .ok es) (back : List Text) :
    entries token number (front ++ back) =
      (entries token (number + front.length) back).map (es ++ ·) := by
  fun_induction entries token number front generalizing es with
  | case1 number =>
    obtain rfl : [] = es := by simpa using h
    rw [List.nil_append, List.length_nil, Nat.add_zero]
    cases entries token number back <;> rfl
  | case2 => simp at h
  | case3 number line below addition k ha ih =>
    cases hr : entries token (number + 1 + k) (below.drop k) with
    | error e => simp [hr, Except.map] at h
    | ok rest =>
      obtain rfl : _ :: rest = es := by simpa [hr, Except.map] using h
      obtain ⟨hk, ho⟩ := (lawful_additionOf token line).takes ha
      have hb : additionOf token line (number + 1) (below ++ back) = .ok (addition, k) :=
        ho _ (by rw [List.take_append_of_le_length hk])
      have hn : number + 1 + k + (below.drop k).length = number + (line :: below).length := by
        simp only [List.length_drop, List.length_cons]
        omega
      rw [List.cons_append, entries_cons_of_ok hb, List.drop_append_of_le_length hk, ih hr, hn]
      cases entries token (number + (line :: below).length) back <;> rfl

/-- Lines that cannot be read consist of lines that can, one that fails, and more below it. -/
theorem exists_of_entries_error {lines : List Text} {e : CompileError}
    (h : entries token number lines = .error e) :
    ∃ front line below es, lines = front ++ line :: below ∧
      e.line = number + front.length + 1 ∧ entries token number front = .ok es ∧
      additionOf token line e.line below = .error e := by
  fun_induction entries token number lines with
  | case1 => simp at h
  | case2 number line below e' ha =>
    obtain rfl : e' = e := by simpa using h
    have hl := (lawful_additionOf token line).line_eq ha
    exact ⟨[], line, below, [], rfl, hl, entries_nil, hl ▸ ha⟩
  | case3 number line below addition k ha ih =>
    have hr : entries token (number + 1 + k) (below.drop k) = .error e := by
      cases hr : entries token (number + 1 + k) (below.drop k) with
      | error e' => simpa [hr, Except.map] using h
      | ok es => simp [hr, Except.map] at h
    obtain ⟨front, line', below', es, hd, hl, hf, he⟩ := ih hr
    obtain ⟨hk, ho⟩ := (lawful_additionOf token line).takes ha
    have hlen : (below.take k).length = k := by rw [List.length_take, Nat.min_eq_left hk]
    have hb : additionOf token line (number + 1) (below.take k ++ front) = .ok (addition, k) := by
      refine ho _ ?_
      rw [List.take_append_of_le_length (by omega), List.take_take, Nat.min_self]
    refine ⟨line :: (below.take k ++ front), line', below', ⟨line.leadingBlanks, addition⟩ :: es,
      ?_, ?_, ?_, he⟩
    · rw [List.cons_append, List.append_assoc, ← hd, List.take_append_drop]
    · simp only [List.length_cons, List.length_append, hlen]
      omega
    · rw [entries_cons_of_ok hb, List.drop_append_of_le_length (by omega),
        List.drop_eq_nil_of_le (by omega), List.nil_append, hf]
      rfl

theorem entries_later (number k : Nat) (lines : List Text) :
    entries token (number + k) lines = (entries token number lines).mapError (·.later k) := by
  fun_induction entries token number lines with
  | case1 number => rw [entries_nil]; rfl
  | case2 number line below e ha =>
    have hl := (lawful_additionOf token line).later (number + 1) k below
    rw [ha] at hl
    have hb : additionOf token line (number + k + 1) below = .error (e.later k) := by
      rw [show number + k + 1 = number + 1 + k by omega, hl]
      rfl
    rw [entries_cons_of_error hb]
    rfl
  | case3 number line below addition j ha ih =>
    have hl := (lawful_additionOf token line).later (number + 1) k below
    rw [ha] at hl
    have hb : additionOf token line (number + k + 1) below = .ok (addition, j) := by
      rw [show number + k + 1 = number + 1 + k by omega, hl]
      rfl
    rw [entries_cons_of_ok hb, show number + k + 1 + j = number + 1 + j + k by omega, ih]
    cases entries token (number + 1 + j) (below.drop j) <;> rfl

/-- Entries that say the same, the blanks in front of them being related. -/
structure Entry.Related (R : Text → Text → Prop) (e e' : Entry) : Prop where
  blanks : R e.blanks e'.blanks
  addition : e'.addition = e.addition

/-- Lines with the same words in them, the blanks in front of them being related. -/
structure SameWords (R : Text → Text → Prop) (line line' : Text) : Prop where
  blanks : R line.leadingBlanks line'.leadingBlanks
  trim : line'.trim = line.trim

theorem map_trim_of_sameWords {R : Text → Text → Prop} {lines lines' : List Text}
    (h : List.Forall₂ (SameWords R) lines lines') :
    lines'.map Text.trim = lines.map Text.trim := by
  induction h with
  | nil => rfl
  | cons hl _ ih => rw [List.map_cons, hl.trim, ih, List.map_cons]

/-- Apart from the blanks in front of them, entries are made of the trimmed lines. -/
theorem entries_related (token : Char) (number : Nat) {R : Text → Text → Prop}
    {lines lines' : List Text} (h : List.Forall₂ (SameWords R) lines lines') :
    (∃ e, entries token number lines = .error e ∧ entries token number lines' = .error e) ∨
      ∃ es es', entries token number lines = .ok es ∧ entries token number lines' = .ok es' ∧
        List.Forall₂ (Entry.Related R) es es' := by
  fun_induction entries token number lines generalizing lines' with
  | case1 number =>
    cases h
    exact .inr ⟨[], [], rfl, entries_nil, .nil⟩
  | case2 number line below e ha =>
    cases h with
    | cons hl hb =>
      have ha' := additionOf_trimmed token (number + 1) hl.trim (map_trim_of_sameWords hb)
      exact .inl ⟨e, rfl, entries_cons_of_error (ha'.trans ha)⟩
  | case3 number line below addition k ha ih =>
    cases h with
    | @cons _ line' _ below' hl hb =>
      have ha' := additionOf_trimmed token (number + 1) hl.trim (map_trim_of_sameWords hb)
      rw [entries_cons_of_ok (ha'.trans ha)]
      rcases ih (List.forall₂_drop k hb) with ⟨e, he, he'⟩ | ⟨es, es', he, he', hes⟩
      · exact .inl ⟨e, by rw [he]; rfl, by rw [he']; rfl⟩
      · refine .inr ⟨⟨line.leadingBlanks, addition⟩ :: es, ⟨line'.leadingBlanks, addition⟩ :: es',
          by rw [he]; rfl, by rw [he']; rfl, .cons ⟨hl.blanks, rfl⟩ hes⟩

end IndentMarkup.Compile
