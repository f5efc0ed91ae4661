import IndentMarkup.Json.Basic

/-! The tokens of JSON text. -/
namespace IndentMarkup.Json

inductive Token
  | objectStart
  | objectEnd
  | arrayStart
  | arrayEnd
  | colon
  | comma
  | scalar (s : Scalar)
deriving DecidableEq, Repr

/-- Blanks between tokens. -/
def isSpace (c : Char) : Bool :=
  c == ' ' || c == '\t' || c == '\n' || c == '\r'

def hexValue? (c : Char) : Option Nat :=
  if '0' ≤ c ∧ c ≤ '9' then some (c.toNat - '0'.toNat)
  else if 'a' ≤ c ∧ c ≤ 'f' then some (c.toNat - 'a'.toNat + 10)
  else if 'A' ≤ c ∧ c ≤ 'F' then some (c.toNat - 'A'.toNat + 10)
  else none

/-- What stands in a string: a character, or a code unit of UTF-16 given by its number. -/
inductive StringUnit
  | char (c : Char)
  | code (n : Nat)
deriving DecidableEq, Repr

/-- The character that a backslash and `c` stand for. -/
def unescape? (c : Char) : Option Char :=
  match c with
  | '"' => some '"'
  | '\\' => some '\\'
  | '/' => some '/'
  | 'b' => some '\x08'
  | 'f' => some '\x0c'
  | 'n' => some '\n'
  | 'r' => some '\r'
  | 't' => some '\t'
  | _ => none

/-- Reads a string behind its opening quote, and its closing quote. -/
def readUnits : Text → Option (List StringUnit × Text)
  | [] => none
  | '"' :: t => some ([], t)
  | '\\' :: 'u' :: a :: b :: c :: d :: t => do
    let n := (← hexValue? a) * 4096 + (← hexValue? b) * 256 + (← hexValue? c) * 16 +
      (← hexValue? d)
    let (units, rest) ← readUnits t
    return (.code n :: units, rest)
  | '\\' :: e :: t => do
    let c ← unescape? e
    let (units, rest) ← readUnits t
    return (.char c :: units, rest)
  | c :: t =>
    if c.toNat < 0x20 then none
    else do
      let (units, rest) ← readUnits t
      return (.char c :: units, rest)

def isHighSurrogate (n : Nat) : Bool := 0xD800 ≤ n && n < 0xDC00

def isLowSurrogate (n : Nat) : Bool := 0xDC00 ≤ n && n < 0xE000

/-- The character that a pair of surrogates stands for. -/
def pairValue (high low : Nat) : Char :=
  Char.ofNat (0x10000 + (high - 0xD800) * 0x400 + (low - 0xDC00))

/-- The text that units stand for. A high surrogate needs a low one right behind it, and a low one a
high one before. -/
def decodeUnits? : List StringUnit → Option Text
  | [] => some []
  | .char c :: units => (decodeUnits? units).map (c :: ·)
  | .code high :: .code low :: units =>
    if isHighSurrogate high then
      if isLowSurrogate low then
        (decodeUnits? units).map (pairValue high low :: ·)
      else none
    else if isLowSurrogate high then none
    else (decodeUnits? (.code low :: units)).map (Char.ofNat high :: ·)
  | .code n :: units =>
    if isHighSurrogate n || isLowSurrogate n then none
    else (decodeUnits? units).map (Char.ofNat n :: ·)

def digitsOf (t : Text) : List (Fin 10) :=
  (t.takeWhile Char.isDigit).map fun c => Fin.ofNat 10 (c.toNat - '0'.toNat)

def valueOf (digits : List (Fin 10)) : Nat :=
  digits.foldl (fun n (d : Fin 10) => 10 * n + d.val) 0

def skipDigits (t : Text) : Text := t.dropWhile Char.isDigit

/-- The digits after a point, if there is one; then at least one digit must follow it. -/
def readFraction : Text → Option (List (Fin 10) × Text)
  | '.' :: t => if (digitsOf t).isEmpty then none else some (digitsOf t, skipDigits t)
  | t => some ([], t)

def readSignedDigits (negative : Bool) (t : Text) : Option (Option Int × Text) :=
  if (digitsOf t).isEmpty then none
  else
    let n : Int := valueOf (digitsOf t)
    some (some (if negative then -n else n), skipDigits t)

def readExponent : Text → Option (Option Int × Text)
  | c :: t =>
    if c = 'e' ∨ c = 'E' then
      match t with
      | '+' :: t => readSignedDigits false t
      | '-' :: t => readSignedDigits true t
      | t => readSignedDigits false t
    else some (none, c :: t)
  | [] => some (none, [])

/-- The digits before the point. A zero stands alone. -/
def readWhole : Text → Option (Nat × Text)
  | '0' :: t => some (0, t)
  | t => if (digitsOf t).isEmpty then none else some (valueOf (digitsOf t), skipDigits t)

def readNumber (negative : Bool) (t : Text) : Option (Number × Text) := do
  let (whole, t) ← readWhole t
  let (fraction, t) ← readFraction t
  let (exponent, t) ← readExponent t
  return ({ negative, whole, fraction, exponent }, t)

/-- Reads the token that a text starts with. -/
def readToken : Text → Option (Token × Text)
  | '\x7b' :: t => some (.objectStart, t)
  | '\x7d' :: t => some (.objectEnd, t)
  | '[' :: t => some (.arrayStart, t)
  | ']' :: t => some (.arrayEnd, t)
  | ':' :: t => some (.colon, t)
  | ',' :: t => some (.comma, t)
  | 'n' :: 'u' :: 'l' :: 'l' :: t => some (.scalar .null, t)
  | 't' :: 'r' :: 'u' :: 'e' :: t => some (.scalar (.bool true), t)
  | 'f' :: 'a' :: 'l' :: 's' :: 'e' :: t => some (.scalar (.bool false), t)
  | '"' :: t => do
    let (units, t) ← readUnits t
    return (.scalar (.string (decodeUnits? units)), t)
  | '-' :: t => do
    let (n, t) ← readNumber true t
    return (.scalar (.number n), t)
  | t => do
    let (n, t) ← readNumber false t
    return (.scalar (.number n), t)

theorem length_of_readUnits {t rest : Text} {units : List StringUnit}
    (h : readUnits t = some (units, rest)) : rest.length < t.length := by
  fun_induction readUnits t generalizing units with
  | case1 => simp at h
  | case2 t => simp_all
  | case3 a b c d t ih =>
    simp only [bind, Option.bind_eq_some_iff, pure, Option.some.injEq, Prod.mk.injEq] at h
    obtain ⟨-, -, -, -, -, -, -, -, ⟨u, r⟩, hu, -, rfl⟩ := h
    have := ih hu
    simp only [List.length_cons] at this ⊢
    omega
  | case4 e t _ ih =>
    simp only [bind, Option.bind_eq_some_iff, pure, Option.some.injEq, Prod.mk.injEq] at h
    obtain ⟨-, -, ⟨u, r⟩, hu, -, rfl⟩ := h
    have := ih hu
    simp only [List.length_cons] at this ⊢
    omega
  | case5 => simp at h
  | case6 c t _ _ _ _ ih =>
    simp only [bind, Option.bind_eq_some_iff, pure, Option.some.injEq, Prod.mk.injEq] at h
    obtain ⟨⟨u, r⟩, hu, -, rfl⟩ := h
    have := ih hu
    simp only [List.length_cons] at this ⊢
    omega

theorem length_skipDigits (t : Text) : (skipDigits t).length ≤ t.length :=
  (List.dropWhile_suffix Char.isDigit).length_le

theorem length_skipDigits_lt {t : Text} (h : ¬(digitsOf t).isEmpty) :
    (skipDigits t).length < t.length := by
  cases t with
  | nil => simp [digitsOf] at h
  | cons c t =>
    by_cases hc : c.isDigit
    · have := length_skipDigits t
      simp only [skipDigits, List.dropWhile_cons, hc, if_true, List.length_cons] at this ⊢
      omega
    · simp [digitsOf, hc] at h

theorem length_of_readWhole {t rest : Text} {n : Nat} (h : readWhole t = some (n, rest)) :
    rest.length < t.length := by
  unfold readWhole at h
  split at h
  · simp_all
  · split at h
    · simp at h
    · next hd =>
      obtain ⟨-, rfl⟩ := by simpa using h
      exact length_skipDigits_lt hd

theorem length_of_readFraction {t rest : Text} {ds : List (Fin 10)}
    (h : readFraction t = some (ds, rest)) : rest.length ≤ t.length := by
  unfold readFraction at h
  split at h
  · next t =>
    split at h
    · simp at h
    · obtain ⟨-, rfl⟩ := by simpa using h
      have := length_skipDigits t
      simp only [List.length_cons]
      omega
  · obtain ⟨-, rfl⟩ := by simpa using h
    exact Nat.le_refl _

theorem length_of_readSignedDigits {negative : Bool} {t rest : Text} {e : Option Int}
    (h : readSignedDigits negative t = some (e, rest)) : rest.length ≤ t.length := by
  unfold readSignedDigits at h
  split at h
  · simp at h
  · obtain ⟨-, rfl⟩ := by simpa using h
    exact length_skipDigits t

theorem length_of_readExponent {t rest : Text} {e : Option Int}
    (h : readExponent t = some (e, rest)) : rest.length ≤ t.length := by
  unfold readExponent at h
  split at h
  · split at h
    · split at h <;>
      · have := length_of_readSignedDigits h
        simp only [List.length_cons]
        omega
    · obtain ⟨-, rfl⟩ := by simpa using h
      exact Nat.le_refl _
  · obtain ⟨-, rfl⟩ := by simpa using h
    exact Nat.le_refl _

theorem length_of_readNumber {negative : Bool} {t rest : Text} {n : Number}
    (h : readNumber negative t = some (n, rest)) : rest.length < t.length := by
  simp only [readNumber, bind, Option.bind_eq_some_iff, pure, Option.some.injEq, Prod.mk.injEq] at h
  obtain ⟨⟨w, t₁⟩, hw, ⟨f, t₂⟩, hf, ⟨e, t₃⟩, he, -, rfl⟩ := h
  have := length_of_readWhole hw
  have := length_of_readFraction hf
  have := length_of_readExponent he
  simp only at *
  omega

theorem length_of_readToken {t rest : Text} {token : Token}
    (h : readToken t = some (token, rest)) : rest.length < t.length := by
  unfold readToken at h
  split at h
  case h_10 t =>
    simp only [bind, Option.bind_eq_some_iff, pure, Option.some.injEq, Prod.mk.injEq] at h
    obtain ⟨⟨u, r⟩, hu, -, rfl⟩ := h
    have := length_of_readUnits hu
    simp only [List.length_cons]
    omega
  case h_11 t =>
    simp only [bind, Option.bind_eq_some_iff, pure, Option.some.injEq, Prod.mk.injEq] at h
    obtain ⟨⟨n, r⟩, hn, -, rfl⟩ := h
    have := length_of_readNumber hn
    simp only [List.length_cons]
    omega
  case h_12 t _ _ _ _ _ _ _ _ _ _ _ =>
    simp only [bind, Option.bind_eq_some_iff, pure, Option.some.injEq, Prod.mk.injEq] at h
    obtain ⟨⟨n, r⟩, hn, -, rfl⟩ := h
    exact length_of_readNumber hn
  all_goals
    obtain ⟨-, rfl⟩ := by simpa using h
    simp only [List.length_cons]
    omega

theorem length_skipSpace (t : Text) : (t.dropWhile isSpace).length ≤ t.length :=
  (List.dropWhile_suffix isSpace).length_le

/-- The tokens of a text, if it consists of tokens and blanks only. -/
def tokens (t : Text) : Option (List Token) :=
  match _ht : t.dropWhile isSpace with
  | [] => some []
  | c :: cs =>
    match _h : readToken (c :: cs) with
    | none => none
    | some (token, rest) => (tokens rest).map (token :: ·)
termination_by t.length
decreasing_by
  have := length_of_readToken _h
  have := length_skipSpace t
  simp only [_ht] at this
  omega

end IndentMarkup.Json
