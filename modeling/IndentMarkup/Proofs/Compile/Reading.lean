import IndentMarkup.Proofs.Compile.Line

/-! What the lines of a source say, apart from where they stand. A line is read together with the
lines below it, of which inline content may take some; levels, unit and page have no part in it. -/
namespace IndentMarkup

/-- The same error, a number of lines further down. -/
def CompileError.later (k : Nat) : CompileError → CompileError
  | unbalancedClosing line => unbalancedClosing (line + k)
  | unmatchedOpening line => unmatchedOpening (line + k)
  | unclosedPlaceholder p line => unclosedPlaceholder p (line + k)

namespace Compile
open Html

/-- Reads the line with a given number. The result has the number of lines taken from those below.
-/
abbrev Reading (α : Type) := (number : Nat) → (below : List Text) → Except CompileError (α × Nat)

namespace Reading

variable {α β : Type} {f : Reading α}

def done (a : α) : Reading α := fun _ _ => .ok (a, 0)

def map (g : α → β) (f : Reading α) : Reading β := fun number below =>
  (f number below).map fun (a, k) => (g a, k)

/-- Reads the head of an element, and goes on with the text behind it. -/
def head (part : Text) (f : Element → Text → Reading α) : Reading α := fun number below =>
  match parseHead number part with
  | .error e => .error e
  | .ok (element, rest) => f element rest number below

/-- What a reading has to do with its number and with the lines below. -/
structure Lawful (f : Reading α) : Prop where
  /-- It depends on no more lines than it takes. -/
  takes : ∀ {n below a k}, f n below = .ok (a, k) →
    k ≤ below.length ∧ ∀ other, other.take k = below.take k → f n other = .ok (a, k)
  /-- It fails at its own line. -/
  line_eq : ∀ {n below e}, f n below = .error e → e.line = n
  /-- Where it fails, it fails alike if the source ends sooner. -/
  fails_take : ∀ {n below e}, f n below = .error e → ∀ k, f n (below.take k) = .error e
  /-- Only content that is never closed fails because of the lines below. -/
  fails_alone : ∀ {n below e}, f n below = .error e → e ≠ .unmatchedOpening n →
    ∀ other, f n other = .error e
  /-- Blanks around the lines below make no difference. -/
  trimmed : ∀ n {below other : List Text}, below.map Text.trim = other.map Text.trim →
    f n below = f n other
  /-- The number shows in errors only. -/
  later : ∀ n k below, f (n + k) below = (f n below).mapError (·.later k)

theorem Lawful.done (a : α) : Lawful (done a) where
  takes h := by
    obtain ⟨rfl, rfl⟩ : a = _ ∧ 0 = _ := by simpa [Reading.done] using h
    exact ⟨Nat.zero_le _, fun _ _ => rfl⟩
  line_eq h := by simp [Reading.done] at h
  fails_take h := by simp [Reading.done] at h
  fails_alone h := by simp [Reading.done] at h
  trimmed _ _ _ _ := rfl
  later _ _ _ := rfl

theorem Lawful.fail {e : Nat → CompileError} (hl : ∀ n, (e n).line = n)
    (hk : ∀ n k, (e n).later k = e (n + k)) : Lawful (fun n _ => .error (e n) : Reading α) where
  takes h := by simp at h
  line_eq h := by
    obtain rfl := Except.error.inj h
    exact hl _
  fails_take h _ := h
  fails_alone h _ _ := h
  trimmed _ _ _ _ := rfl
  later n k _ := by simp [Except.mapError, hk]

theorem map_of_ok {n k : Nat} {below : List Text} {a : α} (h : f n below = .ok (a, k))
    (g : α → β) : map g f n below = .ok (g a, k) := by
  rw [map, h]
  rfl

theorem map_eq_ok {g : α → β} {n : Nat} {below : List Text} {b : β} {k : Nat}
    (h : map g f n below = .ok (b, k)) : ∃ a, f n below = .ok (a, k) ∧ g a = b := by
  unfold map at h
  cases hf : f n below with
  | error e => simp [hf, Except.map] at h
  | ok r =>
    obtain ⟨rfl, rfl⟩ : g r.1 = b ∧ r.2 = k := by simpa [hf, Except.map] using h
    exact ⟨r.1, rfl, rfl⟩

theorem map_eq_error {g : α → β} {n : Nat} {below : List Text} {e : CompileError} :
    map g f n below = .error e ↔ f n below = .error e := by
  unfold map
  cases f n below <;> simp [Except.map]

theorem Lawful.map (h : Lawful f) (g : α → β) : Lawful (map g f) where
  takes hf := by
    obtain ⟨a, ha, rfl⟩ := map_eq_ok hf
    obtain ⟨hk, ho⟩ := h.takes ha
    exact ⟨hk, fun other he => map_of_ok (ho other he) g⟩
  line_eq hf := h.line_eq (map_eq_error.mp hf)
  fails_take hf k := map_eq_error.mpr (h.fails_take (map_eq_error.mp hf) k)
  fails_alone hf hne other := map_eq_error.mpr (h.fails_alone (map_eq_error.mp hf) hne other)
  trimmed n below other hb := by rw [Reading.map, h.trimmed n hb, Reading.map]
  later n k below := by
    rw [Reading.map, h.later, Reading.map]
    cases f n below <;> rfl

theorem head_of_ok {part rest : Text} {element : Element} {n : Nat}
    (h : parseHead n part = .ok (element, rest)) (f : Element → Text → Reading α)
    (below : List Text) : head part f n below = f element rest n below := by
  rw [head, h]

theorem head_of_error {part : Text} {n : Nat} {e : CompileError} (h : parseHead n part = .error e)
    (f : Element → Text → Reading α) (below : List Text) : head part f n below = .error e := by
  rw [head, h]

theorem head_eq_error {part : Text} {f : Element → Text → Reading α} {n : Nat} {below : List Text}
    {e : CompileError} (h : head part f n below = .error e) :
    parseHead n part = .error e ∨
      ∃ element rest, parseHead n part = .ok (element, rest) ∧
        f element rest n below = .error e := by
  unfold head at h
  split at h
  · next e' hp =>
    obtain rfl := Except.error.inj h
    exact .inl hp
  · next element rest hp => exact .inr ⟨element, rest, hp, h⟩

/-- The head of an element is read the same on every line. -/
theorem parseHead_cases (part : Text) :
    (∃ p, ∀ n, parseHead n part = .error (.unclosedPlaceholder p n)) ∨
      ∃ element rest, ∀ n, parseHead n part = .ok (element, rest) := by
  simp only [parseHead_eq_map]
  unfold Attribute.parse
  cases Attribute.scan (partTail part) with
  | error p => exact .inl ⟨p, fun _ => rfl⟩
  | ok r => exact .inr ⟨_, _, fun _ => rfl⟩

theorem Lawful.head {part : Text} {f : Element → Text → Reading α}
    (h : ∀ element rest, Lawful (f element rest)) : Lawful (Reading.head part f) := by
  rcases parseHead_cases part with ⟨p, hp⟩ | ⟨element, rest, hp⟩
  · have he : Reading.head part f = fun n _ => .error (.unclosedPlaceholder p n) := by
      funext n below
      exact head_of_error (hp n) f below
    rw [he]
    exact .fail (fun _ => rfl) fun _ _ => rfl
  · have he : Reading.head part f = f element rest := by
      funext n below
      exact head_of_ok (hp n) f below
    exact he ▸ h element rest

end Reading

/-- Inline content that leaves no bracket open. -/
def contentOf (depth : Int) (content : Text) : Reading Text
  | number, [] => if depth ≤ 0 then .ok (content, 0) else .error (.unmatchedOpening number)
  | number, line :: below =>
    if depth ≤ 0 then .ok (content, 0)
    else (contentOf (depth + line.trim.bracketLevel) (content ++ ' ' :: line.trim) number below).map
      fun (content, k) => (content, k + 1)

/-- How an element ends, given the text after its attributes. -/
def bodyOf (rest : Text) : Reading Body :=
  if rest.head? = some '<' then
    if rest.bracketLevel < 0 then fun number _ => .error (.unbalancedClosing number)
    else (contentOf rest.bracketLevel rest).map fun content => .inline (unwrap content)
  else if rest.head? = some '/' ∧ rest.getLast? = some '/' then .done .selfClosing
  else .done .children

/-- The elements of a chain. -/
def elementsOf : List Text → Reading (List Element)
  | [] => .done []
  | [last] => .head last fun element rest => (bodyOf rest).map fun body => [{ element with body }]
  | part :: parts => .head part fun element _ => (elementsOf parts).map (element :: ·)

theorem elementsOf_cons {parts : List Text} (h : parts ≠ []) (part : Text) :
    elementsOf (part :: parts) =
      .head part fun element _ => (elementsOf parts).map (element :: ·) := by
  cases parts with
  | nil => exact absurd rfl h
  | cons next parts => rfl

/-- What a line adds to the page. -/
def additionOf (token : Char) (line : Text) : Reading Addition :=
  match line.trim with
  | [] => .done (.nested [])
  | c :: text =>
    if c = token then .done (.verbatim text)
    else (elementsOf (chainParts (c :: text))).map .nested

/-- Content takes the lines that it is made of, and looks at no other. -/
theorem contentOf_takes {depth : Int} {content a : Text} {n k : Nat} {below : List Text}
    (h : contentOf depth content n below = .ok (a, k)) :
    k ≤ below.length ∧ ∀ other, other.take k = below.take k →
      contentOf depth content n other = .ok (a, k) := by
  fun_induction contentOf depth content n below generalizing k with
  | case1 depth content n hd =>
    obtain ⟨rfl, rfl⟩ : content = a ∧ 0 = k := by simpa using h
    refine ⟨Nat.zero_le _, fun other _ => ?_⟩
    cases other <;> simp [contentOf, hd]
  | case2 => simp at h
  | case3 depth content n line below hd =>
    obtain ⟨rfl, rfl⟩ : content = a ∧ 0 = k := by simpa using h
    refine ⟨Nat.zero_le _, fun other _ => ?_⟩
    cases other <;> simp [contentOf, hd]
  | case4 depth content n line below hd ih =>
    cases hc : contentOf (depth + line.trim.bracketLevel) (content ++ ' ' :: line.trim) n below with
    | error e => simp [hc, Except.map] at h
    | ok r =>
      obtain ⟨a', k'⟩ := r
      obtain ⟨rfl, rfl⟩ : a' = a ∧ k' + 1 = k := by simpa [hc, Except.map] using h
      obtain ⟨hk, ho⟩ := ih hc
      refine ⟨by simpa using hk, fun other he => ?_⟩
      cases other with
      | nil => simp at he
      | cons line' other =>
        obtain ⟨rfl, hb⟩ : line' = line ∧ other.take k' = below.take k' := by simpa using he
        simp [contentOf, hd, ho other hb, Except.map]

theorem contentOf_error {depth : Int} {content : Text} {n : Nat} {below : List Text}
    {e : CompileError} (h : contentOf depth content n below = .error e) :
    e = .unmatchedOpening n := by
  fun_induction contentOf depth content n below with
  | case1 => simp at h
  | case2 => simpa using h.symm
  | case3 => simp at h
  | case4 depth content n line below hd ih =>
    cases hc : contentOf (depth + line.trim.bracketLevel) (content ++ ' ' :: line.trim) n below with
    | error e' =>
      obtain rfl : e' = e := by simpa [hc, Except.map] using h
      exact ih hc
    | ok r => simp [hc, Except.map] at h

theorem contentOf_trimmed {depth : Int} {content : Text} {n : Nat} {below other : List Text}
    (h : below.map Text.trim = other.map Text.trim) :
    contentOf depth content n below = contentOf depth content n other := by
  induction below generalizing depth content other with
  | nil =>
    obtain rfl : other = [] := by simpa using h.symm
    rfl
  | cons line below ih =>
    cases other with
    | nil => simp at h
    | cons line' other =>
      obtain ⟨hl, hb⟩ : line.trim = line'.trim ∧ below.map Text.trim = other.map Text.trim := by
        simpa using h
      rw [contentOf, contentOf, hl, ih hb]

theorem contentOf_later (depth : Int) (content : Text) (n k : Nat) (below : List Text) :
    contentOf depth content (n + k) below =
      (contentOf depth content n below).mapError (·.later k) := by
  induction below generalizing depth content with
  | nil =>
    rw [contentOf, contentOf]
    split <;> rfl
  | cons line below ih =>
    rw [contentOf, contentOf, ih]
    split
    · rfl
    · cases contentOf (depth + line.trim.bracketLevel) (content ++ ' ' :: line.trim) n below <;> rfl

theorem lawful_contentOf (depth : Int) (content : Text) : (contentOf depth content).Lawful where
  takes := contentOf_takes
  line_eq h := by rw [contentOf_error h]; rfl
  fails_take {n below e} h k := by
    cases hc : contentOf depth content n (below.take k) with
    | error e' => rw [contentOf_error h, contentOf_error hc]
    | ok r =>
      -- content that is complete within fewer lines is complete
      obtain ⟨hk, ho⟩ := contentOf_takes hc
      have ht : below.take r.2 = (below.take k).take r.2 := by
        rw [List.take_take, Nat.min_eq_left (Nat.le_trans hk (List.length_take_le k below))]
      rw [ho below ht] at h
      simp at h
  fails_alone h hne := absurd (contentOf_error h) hne
  trimmed _ _ _ := contentOf_trimmed
  later := contentOf_later depth content

theorem lawful_bodyOf (rest : Text) : (bodyOf rest).Lawful := by
  unfold bodyOf
  split_ifs
  · exact .fail (fun _ => rfl) fun _ _ => rfl
  · exact (lawful_contentOf _ _).map _
  · exact .done _
  · exact .done _

theorem lawful_elementsOf (parts : List Text) : (elementsOf parts).Lawful := by
  fun_induction elementsOf parts with
  | case1 => exact .done _
  | case2 last => exact .head fun element rest => (lawful_bodyOf rest).map _
  | case3 part parts _ ih => exact .head fun element _ => ih.map _

theorem lawful_additionOf (token : Char) (line : Text) : (additionOf token line).Lawful := by
  unfold additionOf
  split
  · exact .done _
  · split_ifs
    · exact .done _
    · exact (lawful_elementsOf _).map _

/-- Blanks around lines make no difference to what they say. -/
theorem additionOf_trimmed (token : Char) (number : Nat) {line line' : Text}
    {below below' : List Text} (hl : line'.trim = line.trim)
    (hb : below'.map Text.trim = below.map Text.trim) :
    additionOf token line' number below' = additionOf token line number below := by
  have hf : additionOf token line' = additionOf token line := by
    rw [additionOf, hl, additionOf]
  rw [hf]
  exact (lawful_additionOf token line).trimmed number hb

end Compile
end IndentMarkup
