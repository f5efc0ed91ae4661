import Mathlib.Data.List.TakeWhile
import IndentMarkup.Json.Token

/-! The tokens of a text do not change when more text comes behind it, as long as that does not go
on with a number. -/
namespace IndentMarkup.Json

/-- What can stand behind a number and is no part of it. -/
def EndsNumber (t : Text) : Prop :=
  ∀ c ∈ t.head?, c.isDigit = false ∧ c ≠ '.' ∧ c ≠ 'e' ∧ c ≠ 'E'

variable {t rest more : Text}

theorem EndsNumber.noDigit (hm : EndsNumber more) : ∀ c ∈ more.head?, c.isDigit = false :=
  fun c hc => (hm c hc).1

theorem digitsOf_append (hm : ∀ c ∈ more.head?, c.isDigit = false) :
    digitsOf (t ++ more) = digitsOf t := by
  have hmore : more.takeWhile Char.isDigit = [] := by
    cases more with
    | nil => rfl
    | cons c more => exact List.takeWhile_cons_of_neg (by simp [hm c rfl])
  unfold digitsOf
  rw [List.takeWhile_append, hmore, List.append_nil]
  split
  · next h => rw [(List.takeWhile_prefix _).eq_of_length h]
  · rfl

theorem skipDigits_append (hm : ∀ c ∈ more.head?, c.isDigit = false) :
    skipDigits (t ++ more) = skipDigits t ++ more := by
  have hmore : more.dropWhile Char.isDigit = more := by
    cases more with
    | nil => rfl
    | cons c more => exact List.dropWhile_cons_of_neg (by simp [hm c rfl])
  unfold skipDigits
  rw [List.dropWhile_append, hmore]
  split
  · next h => rw [List.isEmpty_iff.mp h, List.nil_append]
  · rfl

theorem readUnits_append {units : List StringUnit} (h : readUnits t = some (units, rest))
    (more : Text) : readUnits (t ++ more) = some (units, rest ++ more) := by
  fun_induction readUnits t generalizing units with
  | case1 => simp at h
  | case2 t =>
    obtain ⟨rfl, rfl⟩ : [] = units ∧ t = rest := by simpa using h
    rfl
  | case3 a b c d t ih =>
    simp only [bind, Option.bind_eq_some_iff, pure, Option.some.injEq, Prod.mk.injEq] at h
    obtain ⟨na, ha, nb, hb, nc, hc, nd, hd, ⟨u, r⟩, hu, rfl, rfl⟩ := h
    simp [readUnits, ha, hb, hc, hd, ih hu]
  | case4 e t hnot ih =>
    simp only [bind, Option.bind_eq_some_iff, pure, Option.some.injEq, Prod.mk.injEq] at h
    obtain ⟨c, hc, ⟨u, r⟩, hu, rfl, rfl⟩ := h
    have he : e ≠ 'u' := by rintro rfl; simp [unescape?] at hc
    simp [readUnits, hc, he, ih hu]
  | case5 => simp at h
  | case6 c t _ _ hescape hc ih =>
    simp only [bind, Option.bind_eq_some_iff, pure, Option.some.injEq, Prod.mk.injEq] at h
    obtain ⟨⟨u, r⟩, hu, rfl, rfl⟩ := h
    have hb : c ≠ '\\' := by
      rintro rfl
      cases t with
      | nil => simp [readUnits] at hu
      | cons d t => exact hescape d t rfl rfl
    simp [readUnits, hb, hc, ih hu]

theorem readWhole_append {n : Nat} (h : readWhole t = some (n, rest)) (hm : EndsNumber more) :
    readWhole (t ++ more) = some (n, rest ++ more) := by
  unfold readWhole at h
  split at h
  · obtain ⟨rfl, rfl⟩ := by simpa using h
    rfl
  · next hzero =>
    split at h
    · simp at h
    · next hd =>
      obtain ⟨rfl, rfl⟩ := by simpa using h
      rw [readWhole, digitsOf_append hm.noDigit, skipDigits_append hm.noDigit, if_neg hd]
      intro u hu
      cases t with
      | nil => simp [digitsOf] at hd
      | cons c t => exact hzero t (by simp_all)

theorem readFraction_append {ds : List (Fin 10)} (h : readFraction t = some (ds, rest))
    (hm : EndsNumber more) : readFraction (t ++ more) = some (ds, rest ++ more) := by
  unfold readFraction at h
  split at h
  · next t =>
    split at h
    · simp at h
    · next hd =>
      obtain ⟨rfl, rfl⟩ := by simpa using h
      rw [List.cons_append, readFraction, digitsOf_append hm.noDigit,
        skipDigits_append hm.noDigit, if_neg hd]
  · next hpoint =>
    obtain ⟨rfl, rfl⟩ := by simpa using h
    rw [readFraction]
    intro u hu
    cases t with
    | nil => exact (hm '.' (by simp_all)).2.1 rfl
    | cons c t => exact hpoint t (by simp_all)

theorem readSignedDigits_append {negative : Bool} {e : Option Int}
    (h : readSignedDigits negative t = some (e, rest)) (hm : EndsNumber more) :
    readSignedDigits negative (t ++ more) = some (e, rest ++ more) := by
  unfold readSignedDigits at h ⊢
  rw [digitsOf_append hm.noDigit, skipDigits_append hm.noDigit]
  split at h
  · simp at h
  · next hd =>
    obtain ⟨rfl, rfl⟩ := by simpa using h
    rw [if_neg hd]

theorem readExponent_append {e : Option Int} (h : readExponent t = some (e, rest))
    (hm : EndsNumber more) : readExponent (t ++ more) = some (e, rest ++ more) := by
  fun_cases readExponent t with
  | case1 c hc t =>
    rw [readExponent, if_pos hc] at h
    rw [List.cons_append, List.cons_append, readExponent, if_pos hc]
    exact readSignedDigits_append h hm
  | case2 c hc t =>
    rw [readExponent, if_pos hc] at h
    rw [List.cons_append, List.cons_append, readExponent, if_pos hc]
    exact readSignedDigits_append h hm
  | case3 c hc t hplus hminus =>
    have hd : readSignedDigits false t = some (e, rest) := by
      rw [readExponent, if_pos hc] at h
      · exact h
      · exact hplus
      · exact hminus
    cases t with
    | nil => simp [readSignedDigits, digitsOf] at hd
    | cons d t =>
      rw [List.cons_append, readExponent, if_pos hc]
      · exact readSignedDigits_append hd hm
      · simpa using hplus
      · simpa using hminus
  | case4 c t hc =>
    obtain ⟨rfl, rfl⟩ : none = e ∧ c :: t = rest := by simpa [readExponent, hc] using h
    simp [readExponent, hc]
  | case5 =>
    obtain ⟨rfl, rfl⟩ : none = e ∧ rest = [] := by simpa [readExponent] using h
    cases more with
    | nil => rfl
    | cons d more => simp [readExponent, (hm d rfl).2.2]

theorem readNumber_append {negative : Bool} {n : Number}
    (h : readNumber negative t = some (n, rest)) (hm : EndsNumber more) :
    readNumber negative (t ++ more) = some (n, rest ++ more) := by
  simp only [readNumber, bind, Option.bind_eq_some_iff, pure, Option.some.injEq, Prod.mk.injEq] at h
  obtain ⟨⟨w, t₁⟩, hw, ⟨f, t₂⟩, hf, ⟨e, t₃⟩, he, rfl, rfl⟩ := h
  simp [readNumber, readWhole_append hw hm, readFraction_append hf hm, readExponent_append he hm]

/-- Text that starts with a digit is read as a number. -/
theorem readToken_digit {c : Char} (hc : c.isDigit) (t : Text) :
    readToken (c :: t) =
      (readNumber false (c :: t)).map fun (n, rest) => (.scalar (.number n), rest) := by
  rw [readToken]
  · cases readNumber false (c :: t) <;> rfl
  all_goals
    intros
    simp_all

theorem exists_digit_of_readNumber {negative : Bool} {n : Number}
    (h : readNumber negative t = some (n, rest)) : ∃ c u, t = c :: u ∧ c.isDigit := by
  simp only [readNumber, bind, Option.bind_eq_some_iff, pure, Option.some.injEq, Prod.mk.injEq] at h
  obtain ⟨⟨w, t₁⟩, hw, -⟩ := h
  unfold readWhole at hw
  split at hw
  · exact ⟨_, _, rfl, rfl⟩
  · cases t with
    | nil => simp [digitsOf] at hw
    | cons c t =>
      refine ⟨c, t, rfl, ?_⟩
      by_contra hc
      simp [digitsOf, hc] at hw

theorem readToken_append {token : Token} (h : readToken t = some (token, rest))
    (hm : EndsNumber more) : readToken (t ++ more) = some (token, rest ++ more) := by
  unfold readToken at h
  split at h
  case h_10 t =>
    simp only [bind, Option.bind_eq_some_iff, pure, Option.some.injEq, Prod.mk.injEq] at h
    obtain ⟨⟨u, r⟩, hu, rfl, rfl⟩ := h
    simp [readToken, readUnits_append hu]
  case h_11 t =>
    simp only [bind, Option.bind_eq_some_iff, pure, Option.some.injEq, Prod.mk.injEq] at h
    obtain ⟨⟨n, r⟩, hn, rfl, rfl⟩ := h
    simp [readToken, readNumber_append hn hm]
  case h_12 =>
    simp only [bind, Option.bind_eq_some_iff, pure, Option.some.injEq, Prod.mk.injEq] at h
    obtain ⟨⟨n, r⟩, hn, rfl, rfl⟩ := h
    obtain ⟨c, u, rfl, hc⟩ := exists_digit_of_readNumber hn
    rw [List.cons_append, readToken_digit hc, ← List.cons_append, readNumber_append hn hm]
    rfl
  all_goals
    obtain ⟨rfl, rfl⟩ := by simpa using h
    rfl

theorem tokens_eq (t : Text) : tokens t =
    match t.dropWhile isSpace with
    | [] => some []
    | c :: cs =>
      (readToken (c :: cs)).bind fun (token, rest) => (tokens rest).map (token :: ·) := by
  rw [tokens]
  split
  · next h => rw [h]
  · next h =>
    rw [h]
    split <;> simp_all

theorem dropWhile_of_readToken {token : Token} (h : readToken t = some (token, rest)) :
    t.dropWhile isSpace = t := by
  cases t with
  | nil => rfl
  | cons c t =>
    apply List.dropWhile_cons_of_neg
    intro hc
    simp only [isSpace, Bool.or_eq_true, beq_iff_eq] at hc
    rcases hc with ((rfl | rfl) | rfl) | rfl <;>
      simp [readToken, readNumber, readWhole, digitsOf] at h

theorem tokens_of_readToken {token : Token} (h : readToken t = some (token, rest)) :
    tokens t = (tokens rest).map (token :: ·) := by
  rw [tokens_eq, dropWhile_of_readToken h]
  split
  · simp [readToken, readNumber, readWhole, digitsOf] at h
  · rw [h]
    rfl

/-- The tokens of a text come first, then those of what stands behind it. -/
theorem tokens_append {ts : List Token} (h : tokens t = some ts) (hm : EndsNumber more) :
    tokens (t ++ more) = (tokens more).map (ts ++ ·) := by
  fun_induction tokens t generalizing ts with
  | case1 t hblank =>
    obtain rfl : [] = ts := by simpa using h
    have hskip : (t ++ more).dropWhile isSpace = more.dropWhile isSpace := by
      rw [List.dropWhile_append, hblank]
      rfl
    rw [tokens_eq, hskip, ← tokens_eq]
    simp
  | case2 t c cs hcs hnone => simp at h
  | case3 t c cs hcs token rest htoken ih =>
    obtain ⟨ts, hts, rfl⟩ := Option.map_eq_some_iff.mp h
    have hskip : (t ++ more).dropWhile isSpace = c :: (cs ++ more) := by
      rw [List.dropWhile_append, hcs]
      rfl
    rw [tokens_eq, hskip]
    simp only
    rw [← List.cons_append, readToken_append htoken hm, Option.bind_some, ih hts]
    cases tokens more <;> rfl

/-! Punctuation. -/

@[simp] theorem tokens_objectStart (t : Text) :
    tokens ('\x7b' :: t) = (tokens t).map (.objectStart :: ·) := tokens_of_readToken rfl

@[simp] theorem tokens_objectEnd (t : Text) :
    tokens ('\x7d' :: t) = (tokens t).map (.objectEnd :: ·) := tokens_of_readToken rfl

@[simp] theorem tokens_arrayStart (t : Text) :
    tokens ('[' :: t) = (tokens t).map (.arrayStart :: ·) := tokens_of_readToken rfl

@[simp] theorem tokens_arrayEnd (t : Text) :
    tokens (']' :: t) = (tokens t).map (.arrayEnd :: ·) := tokens_of_readToken rfl

@[simp] theorem tokens_colon (t : Text) :
    tokens (':' :: t) = (tokens t).map (.colon :: ·) := tokens_of_readToken rfl

@[simp] theorem tokens_comma (t : Text) :
    tokens (',' :: t) = (tokens t).map (.comma :: ·) := tokens_of_readToken rfl

@[simp] theorem tokens_nil : tokens [] = some [] := tokens_eq []

@[simp] theorem endsNumber_nil : EndsNumber [] := by simp [EndsNumber]

@[simp] theorem endsNumber_cons {c : Char} : EndsNumber (c :: t) ↔
    c.isDigit = false ∧ c ≠ '.' ∧ c ≠ 'e' ∧ c ≠ 'E' := by
  simp [EndsNumber]

end IndentMarkup.Json
