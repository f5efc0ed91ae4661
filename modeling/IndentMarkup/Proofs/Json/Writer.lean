import IndentMarkup.Proofs.Json.Reader
import IndentMarkup.Proofs.Json.Scalar

/-! Whatever value is written is read back, and stands on one line. An object can also be put
together from the texts of its values. -/
namespace IndentMarkup.Json

/-- A member of an object whose value is given as text. -/
def memberText (key : Option Text) (value : Text) : Text :=
  (Scalar.string key).write ++ ':' :: value

theorem writeMembers_eq_intercalate (members : List (Option Text × Json)) :
    writeMembers members = [','].intercalate (members.map fun m => memberText m.1 m.2.write) := by
  induction members with
  | nil => rfl
  | cons m members ih =>
    cases members with
    | nil => simp [writeMembers, memberText]
    | cons n members =>
      rw [writeMembers, ih]
      · simp [memberText]
      · simp

theorem tokens_memberText (key : Option Text) {value : Text} {ts : List Token}
    (h : tokens value = some ts) :
    tokens (memberText key value) = some (.scalar (.string key) :: .colon :: ts) := by
  rw [memberText, tokens_append (tokens_scalar _) (by simp), tokens_colon, h]
  rfl

/-- Members between commas, each of which has the tokens of its value. -/
theorem tokens_intercalate_members {α : Type} {members : List α} (key : α → Option Text)
    {text : α → Text} {value : α → Json}
    (h : ∀ m ∈ members, tokens (text m) = some (value m).toTokens) :
    tokens ([','].intercalate (members.map fun m => memberText (key m) (text m))) =
      some (memberTokens (members.map fun m => (key m, value m))) := by
  induction members with
  | nil => simp [memberTokens]
  | cons m members ih =>
    have hm := tokens_memberText (key m) (h m List.mem_cons_self)
    have hmembers := ih fun n hn => h n (List.mem_cons_of_mem _ hn)
    cases members with
    | nil => simpa [memberTokens] using hm
    | cons n members =>
      rw [List.map_cons] at hmembers ⊢
      rw [List.map_cons, List.intercalate_cons_cons, List.append_assoc, tokens_append hm (by simp),
        List.singleton_append, tokens_comma, hmembers]
      simp [memberTokens]

theorem tokens_writeItems {items : List Json}
    (h : ∀ j ∈ items, tokens j.write = some j.toTokens) :
    tokens (writeItems items) = some (itemTokens items) := by
  induction items with
  | nil => simp [writeItems, itemTokens]
  | cons j items ih =>
    have hj := h j List.mem_cons_self
    have hitems := ih fun k hk => h k (List.mem_cons_of_mem _ hk)
    cases items with
    | nil => simpa [writeItems, itemTokens] using hj
    | cons k items =>
      rw [writeItems, tokens_append hj (by simp), tokens_comma, hitems]
      · simp [itemTokens]
      · simp

theorem tokens_write (j : Json) : tokens j.write = some j.toTokens := by
  induction j using parts_induction with
  | scalar s => exact tokens_scalar s
  | array items ih =>
    rw [write, List.cons_append, tokens_arrayStart, tokens_append (tokens_writeItems ih) (by simp)]
    simp [toTokens]
  | object members ih =>
    have hmembers := tokens_intercalate_members Prod.fst ih
    rw [← writeMembers_eq_intercalate] at hmembers
    rw [write, List.cons_append, tokens_objectStart, tokens_append hmembers (by simp)]
    simp [toTokens]

@[simp] theorem read?_write (j : Json) : read? j.write = some j :=
  read?_eq_some_iff.mpr (tokens_write j)

/-- An object whose values are given as texts, without blanks between its members. -/
def objectText (members : List (Text × Text)) : Text :=
  '\x7b' :: [','].intercalate (members.map fun m => memberText (some m.1) m.2) ++ ['\x7d']

theorem read?_objectText {members : List (Text × Text)} (h : ∀ m ∈ members, (read? m.2).isSome) :
    read? (objectText members) =
      some (record (members.map fun m => (m.1, (read? m.2).getD null))) := by
  have htokens : ∀ m ∈ members, tokens m.2 = some ((read? m.2).getD null).toTokens := by
    intro m hm
    obtain ⟨j, hj⟩ := Option.isSome_iff_exists.mp (h m hm)
    rw [hj, Option.getD_some]
    exact read?_eq_some_iff.mp hj
  have hmembers := tokens_intercalate_members (fun m => some m.1) htokens
  rw [read?_eq_some_iff, objectText, List.cons_append, tokens_objectStart,
    tokens_append hmembers (by simp)]
  simp [record, toTokens, Function.comp_def]

/-! No line feed is written. -/

theorem newline_notMem_quote (t : Text) : '\n' ∉ quote t := by
  have hescape (c : Char) : '\n' ∉ escape c := by
    unfold escape
    split_ifs with _ _ _ _ hn
    all_goals simp
    exact Ne.symm hn
  simp [quote, List.mem_flatMap, hescape]

theorem newline_notMem_number (n : Number) : '\n' ∉ n.write := by
  have hdigits (k : Nat) : '\n' ∉ Nat.toDigits 10 k := notMem_toDigits rfl
  have hfraction : '\n' ∉ fractionText n.fraction := by
    unfold fractionText
    split <;> simp
  have hexponent : '\n' ∉ exponentText n.exponent := by
    cases n.exponent with
    | none => simp [exponentText]
    | some e =>
      simp only [exponentText, Option.elim_some, writeInt]
      split <;> simp [hdigits]
  rw [Number.write_eq, Number.unsigned]
  split <;> simp [hdigits, hfraction, hexponent]

theorem newline_notMem_scalar (s : Scalar) : '\n' ∉ s.write := by
  cases s with
  | null => decide
  | bool b => cases b <;> decide
  | number n => exact newline_notMem_number n
  | string content =>
    cases content with
    | none => decide
    | some t => exact newline_notMem_quote t

theorem newline_notMem_writeItems {items : List Json} (h : ∀ j ∈ items, '\n' ∉ j.write) :
    '\n' ∉ writeItems items := by
  induction items with
  | nil => simp [writeItems]
  | cons j items ih =>
    have hj := h j List.mem_cons_self
    have hitems := ih fun k hk => h k (List.mem_cons_of_mem _ hk)
    cases items with
    | nil => simpa [writeItems] using hj
    | cons k items => simp [writeItems, hj, hitems]

theorem newline_notMem_writeMembers {members : List (Option Text × Json)}
    (h : ∀ m ∈ members, '\n' ∉ m.2.write) : '\n' ∉ writeMembers members := by
  induction members with
  | nil => simp [writeMembers]
  | cons m members ih =>
    have hkey := newline_notMem_scalar (.string m.1)
    have hm := h m List.mem_cons_self
    have hmembers := ih fun k hk => h k (List.mem_cons_of_mem _ hk)
    cases members with
    | nil => simp [writeMembers, hkey, hm]
    | cons n members => simp [writeMembers, hkey, hm, hmembers]

/-- A value is written on one line. -/
theorem newline_notMem_write (j : Json) : '\n' ∉ j.write := by
  induction j using parts_induction with
  | scalar s => exact newline_notMem_scalar s
  | array items ih => simp [write, newline_notMem_writeItems ih]
  | object members ih => simp [write, newline_notMem_writeMembers ih]

end IndentMarkup.Json
