import Mathlib.Data.Nat.Find
import IndentMarkup.Proofs.Compile.Folding

/-! Inline content that is accepted. Brackets are counted up to the first line that leaves none open,
so the last of several lines may close more than are open; and both ends are taken off as they are,
so a text behind the closing bracket loses its last character instead. -/
namespace IndentMarkup.Compile
open Html

section Depth

variable {first : Text} {below after : List Text}

theorem depthAfter_append {j : Nat} (h : j ≤ below.length) :
    depthAfter first (below ++ after) j = depthAfter first below j := by
  rw [depthAfter, List.take_append_of_le_length h, depthAfter]

theorem depthAfter_length (first : Text) (below : List Text) :
    depthAfter first below below.length = (folded first below).bracketLevel := by
  rw [← bracketLevel_folded, List.take_length]

/-- The last line counts with what it opens and what it closes. -/
theorem depthAfter_concat (first last : Text) (front : List Text) :
    depthAfter first (front ++ [last]) (front ++ [last]).length =
      depthAfter first front front.length + last.count '<' - last.count '>' := by
  unfold depthAfter
  simp only [List.take_length, List.flatten_append, List.flatten_singleton, List.count_append]
  omega

theorem ClosedAt.append (h : ClosedAt first below below.length) (after : List Text) :
    ClosedAt first (below ++ after) below.length where
  le := by simp
  closed := by
    rw [depthAfter_append (Nat.le_refl _)]
    exact h.closed
  opened j hj := by
    rw [depthAfter_append (Nat.le_of_lt hj)]
    exact h.opened j hj

theorem ClosedAt.take {lines : List Text} {k : Nat} (h : ClosedAt first lines k) :
    ClosedAt first (lines.take k) (lines.take k).length := by
  have hk : (lines.take k).length = k := by rw [List.length_take, Nat.min_eq_left h.le]
  have hd : ∀ j ≤ k, depthAfter first (lines.take k) j = depthAfter first lines j := by
    intro j hj
    rw [depthAfter, List.take_take, Nat.min_eq_left hj, depthAfter]
  rw [hk]
  refine ⟨by rw [hk], ?_, fun j hj => ?_⟩
  · rw [hd k (Nat.le_refl k)]
    exact h.closed
  · rw [hd j (Nat.le_of_lt hj)]
    exact h.opened j hj

/-- Content is closed by one of the lines below it, or by none. -/
theorem closedAt_or_open (first : Text) (lines : List Text) :
    (∃ k, ClosedAt first lines k) ∨ ∀ j ≤ lines.length, 0 < depthAfter first lines j := by
  by_cases h : ∃ k, k ≤ lines.length ∧ depthAfter first lines k ≤ 0
  · left
    obtain ⟨hle, hclosed⟩ := Nat.find_spec h
    refine ⟨Nat.find h, hle, hclosed, fun j hj => ?_⟩
    have hmin := Nat.find_min h hj
    by_contra hn
    exact hmin ⟨by omega, by omega⟩
  · right
    intro j hj
    by_contra hn
    exact h ⟨j, hj, by omega⟩

/-- Content that is closed has too many closing brackets if and only if a line below its first
closes more than the lines above leave open. -/
theorem ClosedAt.count_ne_iff (h : ClosedAt first below below.length)
    (h0 : 0 ≤ first.bracketLevel) :
    (folded first below).count '<' ≠ (folded first below).count '>' ↔
      ∃ front last, below = front ++ [last] ∧
        depthAfter first front front.length + last.count '<' < last.count '>' := by
  have hclosed := h.closed
  have hdepth := depthAfter_length first below
  rw [Text.bracketLevel_eq_count] at hdepth
  constructor
  · intro hne
    rcases List.eq_nil_or_concat' below with rfl | ⟨front, last, rfl⟩
    · -- a single line is refused if it closes too many
      have hz := depthAfter_zero first []
      rw [List.length_nil] at hclosed hdepth
      omega
    · rw [depthAfter_concat] at hclosed hdepth
      exact ⟨front, last, rfl, by omega⟩
  · rintro ⟨front, last, rfl, hlast⟩
    rw [depthAfter_concat] at hdepth
    omega

end Depth

section Ends

variable {first : Text} {below : List Text}

theorem ClosedAt.count_le (h : ClosedAt first below below.length) :
    (folded first below).count '<' ≤ (folded first below).count '>' := by
  have hclosed := h.closed
  rw [depthAfter_length, Text.bracketLevel_eq_count] at hclosed
  omega

/-- Content that starts with a bracket and is closed has something behind that bracket. -/
theorem ClosedAt.exists_trim_eq (h : ClosedAt first below below.length)
    (hf : first.head? = some '<') :
    ∃ inner last, (folded first below).trim = '<' :: inner ++ [last] := by
  obtain ⟨text, rfl⟩ := List.head?_eq_some_iff.mp hf
  have hcons : folded ('<' :: text) below = '<' :: folded text below := rfl
  have hcount := h.count_le
  rw [hcons, List.count_cons_self, List.count_cons_of_ne (by decide)] at hcount
  have hmem : '>' ∈ Text.trimEnd (folded text below) := by
    rw [Text.mem_trimEnd_iff (by decide), ← List.count_pos_iff]
    omega
  have htrim : (folded ('<' :: text) below).trim = '<' :: Text.trimEnd (folded text below) := by
    rw [hcons]
    exact Text.trim_append_cons (by decide) [] _
  rcases List.eq_nil_or_concat' (Text.trimEnd (folded text below)) with he | ⟨inner, last, he⟩
  · simp [he] at hmem
  · exact ⟨inner, last, by rw [htrim, he, List.cons_append]⟩

/-- The last line below the first closes a bracket, since there was one open above it. -/
theorem ClosedAt.mem_last {last : Text} {front : List Text}
    (h : ClosedAt first (front ++ [last]) (front ++ [last]).length) : '>' ∈ last := by
  have hclosed := h.closed
  have hopened := h.opened front.length (by simp)
  rw [depthAfter_concat] at hclosed
  rw [depthAfter_append (Nat.le_refl _)] at hopened
  rw [← List.count_pos_iff]
  omega

/-- Content ends where its last line ends. -/
theorem ClosedAt.getLast_trim (h : ClosedAt first below below.length) :
    (folded first below).trim.getLast? = (below.getLastD first).trim.getLast? := by
  rcases List.eq_nil_or_concat' below with rfl | ⟨front, last, rfl⟩
  · simp [folded]
  · have hmem : '>' ∈ last.trim := by
      rw [← List.count_pos_iff, Text.count_trim (by decide), List.count_pos_iff]
      exact h.mem_last
    have hfolded : folded first (front ++ [last]) = (folded first front ++ [' ']) ++ last.trim := by
      simp [folded]
    rw [hfolded, Text.getLast?_trim_append _ (List.ne_nil_of_mem hmem), List.getLastD_concat]

end Ends

namespace State

/-- The next line of `s` carries inline content: in the state `u` it comes to the last of its
elements, and behind the attributes of that stands `first`, which starts with a bracket. -/
structure Carries (s u : State) (element : Element) (first : Text) : Prop where
  reached : s.readLevel.closeTags.ReachesLast u element first
  begins : first.head? = some '<'

variable {s u : State} {element : Element} {first : Text} {below after : List Text}

theorem Carries.source (h : s.Carries u element first) :
    u.lines = s.lines.tail ∧ u.lineNumber = s.lineNumber + 1 :=
  h.reached.source

theorem Carries.atEnd_eq_false (h : s.Carries u element first) : s.atEnd = false := by
  obtain ⟨line, next, -, -, hn, -⟩ := h.reached
  cases he : s.atEnd with
  | false => rfl
  | true =>
    have hl : s.readLevel.closeTags.lines = [] := s.atEnd_iff.mp he
    simp [nextLine?_of_nil hl] at hn

/-- A line without a chain carries content if it starts behind the attributes. -/
theorem exists_carries {line : Text} (hl : s.lines = line :: below) (hne : line.trim ≠ [])
    (ht : line.trim.head? ≠ some s.token) (hparts : chainParts line.trim = [line.trim])
    (hp : parseHead (s.lineNumber + 1) line.trim = .ok (element, first))
    (hf : first.head? = some '<') : ∃ u, s.Carries u element first := by
  obtain ⟨next, hn, hpass⟩ := nextLine?_of_cons (s := s.readLevel.closeTags) hl
  have hnumber : next.lineNumber = s.lineNumber + 1 := hpass.number
  exact ⟨next, ⟨line, next, [], line.trim, hn, hne, ht, hparts, rfl, hnumber ▸ hp⟩, hf⟩

theorem Carries.step_of_unbalanced (h : s.Carries u element first) (hd : first.bracketLevel < 0) :
    s.step = (.error (.unbalancedClosing (s.lineNumber + 1)), u) := by
  rw [← depthAfter_zero first u.lines] at hd
  rw [← h.source.2]
  exact h.reached.processLine_of_error (readBody_of_unbalanced h.begins hd)

theorem Carries.step_of_closed (h : s.Carries u element first) (hd : 0 ≤ first.bracketLevel)
    (hb : s.lines.tail = below ++ after) (hc : ClosedAt first below below.length) :
    s.step.1 = .ok () ∧ s.step.2.lines = after ∧
      s.step.2.page = u.page.writeElement u.unit u.level
        { element with body := .inline (unwrap (folded first below)) } := by
  have hl : u.lines = below ++ after := h.source.1.trans hb
  have h0 : 0 ≤ depthAfter first u.lines 0 := by rwa [depthAfter_zero]
  obtain ⟨last, hp, hread⟩ := readBody_of_closedAt h.begins h0 (hl ▸ hc.append after)
  have hstep : s.step = _ := h.reached.processLine_of_ok hread
  have hlines : last.lines = after := by rw [hp.lines, hl, List.drop_left]
  rw [hstep, hl, List.take_left]
  refine ⟨rfl, hlines, ?_⟩
  simp [writeElement, unit, hp.page, hp.level, hp.indentation]

theorem Carries.step_of_open (h : s.Carries u element first)
    (ho : ∀ j ≤ s.lines.tail.length, 0 < depthAfter first s.lines.tail j) :
    s.step.1 = .error (.unmatchedOpening (s.lineNumber + 1)) := by
  obtain ⟨hl, hn⟩ := h.source
  rw [← hl] at ho
  obtain ⟨last, -, hread⟩ := readBody_of_open h.begins ho
  have hstep : s.step = _ := h.reached.processLine_of_error hread
  rw [hstep, hn]

/-- Content that is accepted goes up to the first line that leaves no bracket open. -/
theorem Carries.exists_closed (h : s.Carries u element first) (hs : s.step.1 = .ok ()) :
    ∃ below, s.lines.tail = below ++ s.step.2.lines ∧ 0 ≤ first.bracketLevel ∧
      ClosedAt first below below.length ∧
      s.step.2.page = u.page.writeElement u.unit u.level
        { element with body := .inline (unwrap (folded first below)) } := by
  have hd : 0 ≤ first.bracketLevel := by
    by_contra hn
    simp [h.step_of_unbalanced (by omega)] at hs
  rcases closedAt_or_open first s.lines.tail with ⟨k, hk⟩ | ho
  · have hsplit : s.lines.tail = s.lines.tail.take k ++ s.lines.tail.drop k :=
      (List.take_append_drop k _).symm
    obtain ⟨-, hlines, hpage⟩ := h.step_of_closed hd hsplit hk.take
    exact ⟨s.lines.tail.take k, by rw [hlines, ← hsplit], hd, hk.take, hpage⟩
  · simp [h.step_of_open ho] at hs

end State

/-- In a source that compiles, no line fails. -/
theorem step_of_compile {options : Options} {source html : Text} {past : List LineRecord}
    {s : State} (h : compile options source = .ok html)
    (hr : (initial options source).Reaches past s) (he : s.atEnd = false) : s.step.1 = .ok () := by
  cases hs : s.step.1 with
  | ok _ => rfl
  | error e =>
    have hrun := hr.run_eq.trans (State.run_of_error he hs)
    rw [compile_of_error hrun] at h
    simp at h

/-- What is lost of inline content: its first character, which is a bracket, its last, and blanks.
The last is a bracket too if and only if the last line of the content ends with one. -/
theorem content_loses_ends {options : Options} {source html : Text} {past : List LineRecord}
    {s u : State} {element : Element} {first : Text} (h : compile options source = .ok html)
    (hr : (initial options source).Reaches past s) (hc : s.Carries u element first) :
    ∃ below inner last, s.lines.tail = below ++ s.step.2.lines ∧
      (folded first below).trim = '<' :: inner ++ [last] ∧
      s.step.2.page = u.page.writeElement u.unit u.level
        { element with body := .inline (Text.trim inner) } ∧
      (∀ c, Text.isBlank c = false →
        (folded first below).count c = (Text.trim inner).count c + ['<', last].count c) ∧
      (last = '>' ↔ (below.getLastD first).trim.getLast? = some '>') := by
  obtain ⟨below, hb, -, hclosed, hpage⟩ :=
    hc.exists_closed (step_of_compile h hr hc.atEnd_eq_false)
  obtain ⟨inner, last, htrim⟩ := hclosed.exists_trim_eq hc.begins
  have hunwrap : unwrap (folded first below) = Text.trim inner := by
    rw [unwrap, htrim, List.cons_append, List.drop_one, List.tail_cons, List.dropLast_concat]
  refine ⟨below, inner, last, hb, htrim, ?_, fun c hblank => ?_, ?_⟩
  · rw [hpage, hunwrap]
  · rw [← Text.count_trim hblank (folded first below), htrim, Text.count_trim hblank inner]
    simp only [List.cons_append, List.count_cons, List.count_append, List.count_nil]
    omega
  · rw [← hclosed.getLast_trim, htrim, List.getLast?_append_of_ne_nil _ (by simp)]
    simp

/-- Content of two lines, with a bracket at the end of the second. -/
theorem content_loses_ends_bracket :
    let source := "p <a\n <b> c>\nq".toList
    let s := initial {} source
    compile {} source = .ok "<p>a <b> c</p>\n<q>\n</q>\n".toList ∧
      ∃ u, s.Carries u { selector := ⟨"p".toList, none, []⟩ } "<a".toList ∧
        ∃ below inner last, s.lines.tail = below ++ s.step.2.lines ∧
          (folded "<a".toList below).trim = '<' :: inner ++ [last] ∧
          s.step.2.page = u.page.writeElement u.unit u.level
            { selector := ⟨"p".toList, none, []⟩, body := .inline (Text.trim inner) } ∧
          (∀ c, Text.isBlank c = false → (folded "<a".toList below).count c =
            (Text.trim inner).count c + ['<', last].count c) ∧
          (last = '>' ↔ (below.getLastD "<a".toList).trim.getLast? = some '>') := by
  intro source s
  have hhtml : compile {} source = .ok "<p>a <b> c</p>\n<q>\n</q>\n".toList := by decide +kernel
  obtain ⟨u, hu⟩ : ∃ u, s.Carries u { selector := ⟨"p".toList, none, []⟩ } "<a".toList :=
    State.exists_carries (show s.lines = "p <a".toList :: s.lines.tail by decide) (by decide)
      (by decide) (by decide +kernel) (by decide +kernel) rfl
  exact ⟨hhtml, u, hu, content_loses_ends hhtml .start hu⟩

/-- A text behind the closing bracket loses its last character, and the bracket stays. -/
theorem content_loses_letter :
    let source := "p <a> b".toList
    let s := initial {} source
    compile {} source = .ok "<p>a></p>\n".toList ∧
      (∃ u, s.Carries u { selector := ⟨"p".toList, none, []⟩ } "<a> b".toList) ∧
      s.lines.tail = [] ++ s.step.2.lines ∧
      (folded "<a> b".toList []).trim.getLast? = some 'b' ∧
      (folded "<a> b".toList []).count 'b' = 1 ∧ "<p>a></p>\n".toList.count 'b' = 0 := by
  intro source s
  have hu : ∃ u, s.Carries u { selector := ⟨"p".toList, none, []⟩ } "<a> b".toList :=
    State.exists_carries (show s.lines = "p <a> b".toList :: s.lines.tail by decide) (by decide)
      (by decide) (by decide +kernel) (by decide +kernel) rfl
  exact ⟨by decide +kernel, hu, by decide +kernel, by decide, by decide, by decide⟩

end IndentMarkup.Compile
