import IndentMarkup.Json.Writer
import IndentMarkup.Proofs.Json.Token

/-! A number or string is read as it was written. -/
namespace IndentMarkup.Json

/-! Strings. -/

/-- A unit that is no surrogate stands for one character, whatever follows. -/
theorem decodeUnits?_code {n : Nat} (h : n < 0xD800) (units : List StringUnit) :
    decodeUnits? (.code n :: units) = (decodeUnits? units).map (Char.ofNat n :: ·) := by
  have hhigh : isHighSurrogate n = false := by simp [isHighSurrogate]; omega
  have hlow : isLowSurrogate n = false := by simp [isLowSurrogate]; omega
  rw [decodeUnits?.eq_def]
  split <;> simp_all

theorem readUnits_escaped {e c : Char} (he : unescape? e = some c) (t : Text) :
    readUnits ('\\' :: e :: t) =
      (readUnits t).map fun (units, rest) => (.char c :: units, rest) := by
  have hu : e ≠ 'u' := by
    rintro rfl
    simp [unescape?] at he
  cases h : readUnits t <;> simp [readUnits, he, hu, h]

theorem hexValue?_digitChar : ∀ n < 16, hexValue? (Nat.digitChar n) = some n := by
  decide

theorem readUnits_control {n : Nat} (hn : n < 0x20) (t : Text) :
    readUnits ('\\' :: 'u' :: '0' :: '0' :: Nat.digitChar (n / 16) :: Nat.digitChar (n % 16) :: t) =
      (readUnits t).map fun (units, rest) => (.code n :: units, rest) := by
  have hhigh := hexValue?_digitChar (n / 16) (by omega)
  have hlow := hexValue?_digitChar (n % 16) (by omega)
  have hzero : hexValue? '0' = some 0 := rfl
  have hn : n / 16 * 16 + n % 16 = n := by omega
  cases h : readUnits t <;> simp [readUnits, hhigh, hlow, hzero, hn, h]

theorem readUnits_plain {c : Char} (hq : c ≠ '"') (hb : c ≠ '\\') (hc : ¬c.toNat < 0x20)
    (t : Text) :
    readUnits (c :: t) = (readUnits t).map fun (units, rest) => (.char c :: units, rest) := by
  rw [readUnits, if_neg hc]
  · cases h : readUnits t <;> rfl
  · exact hq
  · exact fun _ _ _ _ _ h => absurd h hb
  · exact fun _ _ h => absurd h hb

/-- What a character is written as is read as one unit, which stands for that character. -/
theorem exists_unit_escape (c : Char) : ∃ u : StringUnit,
    (∀ t, readUnits (escape c ++ t) = (readUnits t).map fun (units, rest) => (u :: units, rest)) ∧
      ∀ units, decodeUnits? (u :: units) = (decodeUnits? units).map (c :: ·) := by
  unfold escape
  split_ifs with hq hb _ _ _ _ _ hc
  -- the seven characters that have an escape of their own
  iterate 7
    · subst c
      exact ⟨.char _, readUnits_escaped rfl, fun _ => rfl⟩
  · refine ⟨.code c.toNat, readUnits_control hc, fun units => ?_⟩
    rw [decodeUnits?_code (by omega), Char.ofNat_toNat]
  · exact ⟨.char c, readUnits_plain hq hb hc, fun _ => rfl⟩

/-- A quoted text is read back, up to its closing quote. -/
theorem readUnits_quoted (t rest : Text) :
    ∃ units, readUnits (t.flatMap escape ++ '"' :: rest) = some (units, rest) ∧
      decodeUnits? units = some t := by
  induction t with
  | nil => exact ⟨[], rfl, rfl⟩
  | cons c t ih =>
    obtain ⟨units, hunits, hdecode⟩ := ih
    obtain ⟨u, hread, hu⟩ := exists_unit_escape c
    refine ⟨u :: units, ?_, ?_⟩
    · rw [List.flatMap_cons, List.append_assoc, hread, hunits]
      rfl
    · rw [hu, hdecode]
      rfl

theorem readToken_quote (t : Text) :
    readToken (quote t) = some (.scalar (.string (some t)), []) := by
  obtain ⟨units, hunits, hdecode⟩ := readUnits_quoted t []
  simp [quote, readToken, hunits, hdecode]

/-! Numbers. -/

theorem digitsOf_of_forall {t : Text} (h : ∀ c ∈ t, c.isDigit) :
    digitsOf t = t.map fun c => Fin.ofNat 10 (c.toNat - '0'.toNat) := by
  rw [digitsOf, List.takeWhile_eq_self_iff.mpr h]

theorem skipDigits_of_forall {t : Text} (h : ∀ c ∈ t, c.isDigit) : skipDigits t = [] :=
  List.dropWhile_eq_nil_iff.mpr h

theorem isDigit_of_mem_toDigits {n : Nat} : ∀ c ∈ Nat.toDigits 10 n, c.isDigit :=
  fun _ hc => Nat.isDigit_of_mem_toDigits (by decide) (by decide) hc

theorem notMem_toDigits {n : Nat} {c : Char} (hc : c.isDigit = false) : c ∉ Nat.toDigits 10 n :=
  fun h => absurd (isDigit_of_mem_toDigits c h) (by simp [hc])

theorem valueOf_digitsOf_toDigits (n : Nat) : valueOf (digitsOf (Nat.toDigits 10 n)) = n := by
  have hfold : ∀ (t : Text) (k : Nat), (∀ c ∈ t, c.isDigit) →
      (t.map fun c => Fin.ofNat 10 (c.toNat - '0'.toNat)).foldl
        (fun n (d : Fin 10) => 10 * n + d.val) k = Nat.ofDigitChars 10 t k := by
    intro t
    induction t with
    | nil => simp
    | cons c t ih =>
      intro k h
      have hc : c.toNat - '0'.toNat < 10 := by
        have hd := h c List.mem_cons_self
        simp only [Char.isDigit, Bool.and_eq_true, decide_eq_true_eq] at hd
        have hle : c.toNat ≤ 57 := hd.2
        have hzero : '0'.toNat = 48 := rfl
        omega
      have hval : (Fin.ofNat 10 (c.toNat - '0'.toNat)).val = c.toNat - '0'.toNat :=
        Nat.mod_eq_of_lt hc
      rw [Nat.ofDigitChars_cons, List.map_cons, List.foldl_cons, hval]
      exact ih _ fun d hd => h d (List.mem_cons_of_mem _ hd)
  rw [digitsOf_of_forall isDigit_of_mem_toDigits, valueOf, hfold _ _ isDigit_of_mem_toDigits,
    Nat.ofDigitChars_ten_toDigits]

theorem digitsOf_digitChars (ds : List (Fin 10)) :
    digitsOf (ds.map fun d => Nat.digitChar d.val) = ds := by
  have hall : ∀ c ∈ ds.map fun d => Nat.digitChar d.val, c.isDigit := by simp
  have hback : ∀ d : Fin 10, Fin.ofNat 10 ((Nat.digitChar d.val).toNat - '0'.toNat) = d := by decide
  rw [digitsOf_of_forall hall, List.map_map]
  exact (List.map_congr_left fun d _ => hback d).trans (List.map_id ds)

theorem isEmpty_digitsOf_toDigits (n : Nat) : (digitsOf (Nat.toDigits 10 n)).isEmpty = false := by
  simp [digitsOf_of_forall isDigit_of_mem_toDigits]

/-- The first digit of a number is zero for zero only. -/
theorem exists_toDigits_eq_cons (n : Nat) :
    ∃ c t, Nat.toDigits 10 n = c :: t ∧ c.isDigit ∧ (0 < n → c ≠ '0') := by
  obtain ⟨c, t, h⟩ := List.exists_cons_of_ne_nil (Nat.toDigits_ne_nil (n := n) (b := 10))
  refine ⟨c, t, h, isDigit_of_mem_toDigits c (h ▸ List.mem_cons_self), fun hn => ?_⟩
  induction n using Nat.strong_induction_on generalizing t with
  | _ n ih =>
    rw [Nat.toDigits_eq_if (by decide)] at h
    split at h
    · obtain ⟨rfl, -⟩ := by simpa using h
      simpa using hn.ne'
    · obtain ⟨d, u, hu⟩ := List.exists_cons_of_ne_nil (Nat.toDigits_ne_nil (n := n / 10) (b := 10))
      obtain ⟨rfl, -⟩ : d = c ∧ _ := by simpa [hu] using h
      exact ih (n / 10) (by omega) u hu (by omega)

theorem readWhole_toDigits (n : Nat) {more : Text} (hm : ∀ c ∈ more.head?, c.isDigit = false) :
    readWhole (Nat.toDigits 10 n ++ more) = some (n, more) := by
  rcases Nat.eq_zero_or_pos n with rfl | hn
  · rw [Nat.toDigits_zero]
    rfl
  · rw [readWhole, digitsOf_append hm, skipDigits_append hm, valueOf_digitsOf_toDigits,
      isEmpty_digitsOf_toDigits, skipDigits_of_forall isDigit_of_mem_toDigits]
    · rfl
    · intro u hu
      obtain ⟨c, t, h, -, hzero⟩ := exists_toDigits_eq_cons n
      rw [h, List.cons_append, List.cons.injEq] at hu
      exact hzero hn hu.1

theorem readSignedDigits_toDigits (negative : Bool) (n : Nat) :
    readSignedDigits negative (Nat.toDigits 10 n) =
      some (some (if negative then -(n : Int) else n), []) := by
  rw [readSignedDigits, isEmpty_digitsOf_toDigits, valueOf_digitsOf_toDigits,
    skipDigits_of_forall isDigit_of_mem_toDigits]
  rfl

def fractionText (ds : List (Fin 10)) : Text :=
  if ds.isEmpty then [] else '.' :: ds.map fun d => Nat.digitChar d.val

def exponentText (e : Option Int) : Text :=
  e.elim [] fun e => 'e' :: writeInt e

theorem head?_exponentText (e : Option Int) :
    ∀ c ∈ (exponentText e).head?, c.isDigit = false ∧ c ≠ '.' := by
  cases e <;> simp [exponentText]

theorem readFraction_fractionText (ds : List (Fin 10)) {more : Text}
    (hm : ∀ c ∈ more.head?, c.isDigit = false ∧ c ≠ '.') :
    readFraction (fractionText ds ++ more) = some (ds, more) := by
  unfold fractionText
  split
  · next h =>
    rw [List.isEmpty_iff.mp h, List.nil_append, readFraction]
    rintro t rfl
    exact (hm '.' rfl).2 rfl
  · next h =>
    have hno := fun c hc => (hm c hc).1
    have hall : ∀ c ∈ ds.map fun d => Nat.digitChar d.val, c.isDigit := by simp
    rw [List.cons_append, readFraction, digitsOf_append hno, skipDigits_append hno,
      digitsOf_digitChars, skipDigits_of_forall hall, if_neg h, List.nil_append]

theorem readExponent_exponentText (e : Option Int) :
    readExponent (exponentText e) = some (e, []) := by
  cases e with
  | none => rfl
  | some e =>
    rw [exponentText, Option.elim_some, writeInt]
    split
    · have he : -(e.natAbs : Int) = e := by omega
      rw [List.singleton_append, readExponent, if_pos (Or.inl rfl), readSignedDigits_toDigits,
        if_pos rfl, he]
    · have he : (e.natAbs : Int) = e := by omega
      obtain ⟨c, t, h, hc, -⟩ := exists_toDigits_eq_cons e.natAbs
      rw [List.nil_append, readExponent, if_pos (Or.inl rfl), readSignedDigits_toDigits,
        if_neg Bool.false_ne_true, he]
      all_goals
        rintro u hu
        obtain ⟨rfl, -⟩ := List.cons.inj (h.symm.trans hu)
        simp at hc

/-- A number as it is written behind its sign. -/
def Number.unsigned (n : Number) : Text :=
  Nat.toDigits 10 n.whole ++ (fractionText n.fraction ++ exponentText n.exponent)

theorem Number.write_eq (n : Number) :
    n.write = (if n.negative then ['-'] else []) ++ n.unsigned := by
  cases h : n.exponent <;>
    simp [Number.write, Number.unsigned, fractionText, exponentText, h]

theorem readNumber_unsigned (n : Number) : readNumber n.negative n.unsigned = some (n, []) := by
  have hexponent := head?_exponentText n.exponent
  have hfraction : ∀ c ∈ (fractionText n.fraction ++ exponentText n.exponent).head?,
      c.isDigit = false := by
    unfold fractionText
    split
    · exact fun c hc => (hexponent c hc).1
    · simp
  simp [readNumber, Number.unsigned, readWhole_toDigits _ hfraction,
    readFraction_fractionText _ hexponent, readExponent_exponentText]

theorem readToken_number (n : Number) : readToken n.write = some (.scalar (.number n), []) := by
  have hn := readNumber_unsigned n
  rw [Number.write_eq]
  split
  · next h =>
    rw [h] at hn
    simp [readToken, hn]
  · next h =>
    rw [Bool.not_eq_true _ |>.mp h] at hn
    obtain ⟨c, t, hc, hd⟩ := exists_digit_of_readNumber hn
    rw [List.nil_append, hc, readToken_digit hd, ← hc, hn]
    rfl

theorem readToken_scalar (s : Scalar) : readToken s.write = some (.scalar s, []) := by
  cases s with
  | null => rfl
  | bool b => cases b <;> rfl
  | number n => exact readToken_number n
  | string content =>
    cases content with
    | none => decide
    | some t => exact readToken_quote t

/-- A scalar that is written is read as one token. -/
theorem tokens_scalar (s : Scalar) : tokens s.write = some [.scalar s] := by
  rw [tokens_of_readToken (readToken_scalar s), tokens_nil]
  rfl

end IndentMarkup.Json
