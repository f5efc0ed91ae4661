import IndentMarkup.Proofs.Compile.Nesting
import IndentMarkup.Proofs.Compile.Steps
import IndentMarkup.Proofs.Text.Nesting

/-! Inline content over several lines. Lines are added to it as long as it leaves a bracket open, so
it ends with the first line that closes what the lines up to it have opened. -/
namespace IndentMarkup.Compile
open Html

/-- Inline content made of its first line and the lines below. -/
def folded (first : Text) (lines : List Text) : Text :=
  first ++ lines.flatMap fun line => ' ' :: line.trim

/-- The brackets that are opened on the first line of inline content and on `j` lines below it, less
those that are closed there. -/
def depthAfter (first : Text) (lines : List Text) (j : Nat) : Int :=
  let t := first ++ (lines.take j).flatten
  (t.count '<' : Int) - t.count '>'

/-- Inline content that is closed behind `k` lines below its first, and not before. -/
structure ClosedAt (first : Text) (lines : List Text) (k : Nat) : Prop where
  le : k ≤ lines.length
  closed : depthAfter first lines k ≤ 0
  opened : ∀ j < k, 0 < depthAfter first lines j

theorem count_folded {c : Char} (hc : Text.isBlank c = false) (first : Text) (lines : List Text) :
    (folded first lines).count c = (first ++ lines.flatten).count c := by
  have hs : c ≠ ' ' := by
    rintro rfl
    exact absurd hc (by decide)
  rw [folded, List.count_append, List.count_append]
  congr 1
  induction lines with
  | nil => rfl
  | cons line lines ih =>
    rw [List.flatMap_cons, List.cons_append, List.count_cons_of_ne hs.symm, List.count_append, ih,
      Text.count_trim hc, List.flatten_cons, List.count_append]

/-- Blanks that folding adds or takes away do not count. -/
theorem bracketLevel_folded (first : Text) (lines : List Text) (j : Nat) :
    (folded first (lines.take j)).bracketLevel = depthAfter first lines j := by
  rw [Text.bracketLevel_eq_count, count_folded (by decide), count_folded (by decide)]
  rfl

theorem depthAfter_zero (first : Text) (lines : List Text) :
    depthAfter first lines 0 = first.bracketLevel := by
  rw [← bracketLevel_folded]
  simp [folded]

theorem folded_take_succ {first line : Text} {lines below : List Text} {k : Nat}
    (h : lines.drop k = line :: below) :
    folded first (lines.take (k + 1)) = folded first (lines.take k) ++ ' ' :: line.trim := by
  have hline : lines[k]? = some line := by
    rw [← List.head?_drop, h]
    rfl
  rw [List.take_add_one, hline]
  simp [folded]

namespace State

theorem foldLines_of_closed {depth : Int} (h : depth ≤ 0) (content : Text) (s : State) :
    s.foldLines depth content = (some content, s) := by
  rw [foldLines, if_pos h]

theorem foldLines_of_atEnd {depth : Int} {s : State} (h : 0 < depth) (he : s.lines = [])
    (content : Text) : s.foldLines depth content = (none, s) := by
  rw [foldLines, if_neg (by omega)]
  split
  · rfl
  · next hn => simp [nextLine?_of_nil he] at hn

/-- A line that is added to content counts with its brackets. -/
theorem foldLines_step {content line : Text} {s next : State} (h : 0 < content.bracketLevel)
    (hn : s.nextLine? = some (line, next)) :
    s.foldLines content.bracketLevel content =
      next.foldLines (content ++ ' ' :: line.trim).bracketLevel (content ++ ' ' :: line.trim) := by
  have hlevel : (content ++ ' ' :: line.trim).bracketLevel =
      content.bracketLevel + line.trim.bracketLevel := by
    simp only [Text.bracketLevel_eq_count, List.count_append]
    rw [List.count_cons_of_ne (by decide), List.count_cons_of_ne (by decide)]
    omega
  rw [foldLines, if_neg (by omega)]
  split
  · next hnone => simp [hn] at hnone
  · next line' next' hsome =>
    obtain ⟨rfl, rfl⟩ : line = line' ∧ next = next' := by simpa [hn] using hsome
    rw [hlevel]

/-- As long as content is open, the lines below it are added one after the other. -/
theorem foldLines_past {first : Text} {s : State} {k : Nat} (hk : k ≤ s.lines.length)
    (h : ∀ j < k, 0 < depthAfter first s.lines j) :
    ∃ next, Passes k s next ∧ s.foldLines first.bracketLevel first =
      next.foldLines (depthAfter first s.lines k) (folded first (s.lines.take k)) := by
  induction k with
  | zero =>
    refine ⟨s, .refl s, ?_⟩
    rw [depthAfter_zero]
    simp [folded]
  | succ k ih =>
    obtain ⟨next, hp, hf⟩ := ih (by omega) fun j hj => h j (by omega)
    obtain ⟨line, below, hl⟩ : ∃ line below, s.lines.drop k = line :: below :=
      List.exists_cons_of_ne_nil (mt List.drop_eq_nil_iff.mp (by omega))
    obtain ⟨after, hn, hp'⟩ := nextLine?_of_cons (hp.lines.trans hl)
    refine ⟨after, hp.trans hp', ?_⟩
    have hopen : 0 < (folded first (s.lines.take k)).bracketLevel := by
      rw [bracketLevel_folded]
      exact h k (by omega)
    rw [hf, ← bracketLevel_folded, foldLines_step hopen hn, ← folded_take_succ hl,
      bracketLevel_folded]

variable {first : Text} {s u : State} {k : Nat}

theorem readBody_of_unbalanced (hf : first.head? = some '<')
    (h : depthAfter first s.lines 0 < 0) :
    s.readBody first = (.error (.unbalancedClosing s.lineNumber), s) := by
  have hd : first.bracketLevel < 0 := by rwa [← depthAfter_zero first s.lines]
  rw [readBody, if_pos hf]
  simp only [hd, if_true]

theorem readBody_of_closedAt (hf : first.head? = some '<')
    (h0 : 0 ≤ depthAfter first s.lines 0) (h : ClosedAt first s.lines k) :
    ∃ after, Passes k s after ∧
      s.readBody first = (.ok (.inline (unwrap (folded first (s.lines.take k)))), after) := by
  obtain ⟨after, hp, hfold⟩ := foldLines_past h.le h.opened
  have hd : ¬first.bracketLevel < 0 := by rwa [← depthAfter_zero first s.lines, Int.not_lt]
  rw [foldLines_of_closed h.closed] at hfold
  refine ⟨after, hp, ?_⟩
  rw [readBody, if_pos hf]
  simp only [hd, if_false, hfold]

theorem readBody_of_open (hf : first.head? = some '<')
    (h : ∀ j ≤ s.lines.length, 0 < depthAfter first s.lines j) :
    ∃ after, Passes s.lines.length s after ∧
      s.readBody first = (.error (.unmatchedOpening s.lineNumber), after) := by
  obtain ⟨after, hp, hfold⟩ := foldLines_past (Nat.le_refl _) fun j hj => h j (Nat.le_of_lt hj)
  have hend : after.lines = [] := by rw [hp.lines, List.drop_length]
  have hd : ¬first.bracketLevel < 0 := by
    have h0 := h 0 (Nat.zero_le _)
    rw [depthAfter_zero] at h0
    omega
  rw [foldLines_of_atEnd (h _ (Nat.le_refl _)) hend] at hfold
  refine ⟨after, hp, ?_⟩
  rw [readBody, if_pos hf]
  simp only [hd, if_false, hfold]

/-- The text that was read is made of the lines that were passed. -/
theorem Advances.lines_eq_take {read : Text} (h : Advances read s u) (hp : Passes k s u) :
    read.lines = s.lines.take k := by
  have hlen : read.lines.length = k := by
    have hr := h.lineNumber
    have hn := hp.number
    omega
  rw [h.lines_eq, List.take_left' hlen]

/-- Processing the next line of `s` comes to the last part of its chain in the state `u`, with an
element up to its attributes and the text `first` behind them. -/
def ReachesLast (s u : State) (element : Element) (first : Text) : Prop :=
  ∃ line next outer last, s.nextLine? = some (line, next) ∧ line.trim ≠ [] ∧
    line.trim.head? ≠ some s.token ∧ chainParts line.trim = outer ++ [last] ∧
    next.writeOuter outer = .ok u ∧ parseHead u.lineNumber last = .ok (element, first)

theorem writeOuter_source {outer : List Text} (h : s.writeOuter outer = .ok u) :
    u.remaining = s.remaining ∧ u.lineNumber = s.lineNumber := by
  induction outer generalizing s with
  | nil =>
    obtain rfl : s = u := by simpa [writeOuter] using h
    exact ⟨rfl, rfl⟩
  | cons part outer ih =>
    rw [writeOuter] at h
    split at h
    · simp at h
    · -- writing an element reads nothing
      have hs := ih h
      exact hs

variable {element : Element}

/-- Only the line itself has been read when its last part comes up. -/
theorem ReachesLast.source (h : s.ReachesLast u element first) :
    u.lines = s.lines.tail ∧ u.lineNumber = s.lineNumber + 1 := by
  obtain ⟨line, next, outer, last, hn, -, -, -, hu, -⟩ := h
  obtain ⟨hr, hl⟩ := writeOuter_source hu
  have he : s.lines ≠ [] := fun he => by simp [nextLine?_of_nil he] at hn
  obtain ⟨line', below, hb⟩ := List.exists_cons_of_ne_nil he
  obtain ⟨next', hn', hp⟩ := nextLine?_of_cons hb
  obtain ⟨rfl, rfl⟩ : line = line' ∧ next = next' := by simpa [hn] using hn'
  refine ⟨?_, by rw [hl, hp.number]⟩
  rw [lines, hr, ← List.drop_one]
  exact hp.lines

/-- A line ends with the last part of its chain. -/
theorem ReachesLast.exists_processLine_eq (h : s.ReachesLast u element first) :
    ∃ last, parseHead u.lineNumber last = .ok (element, first) ∧
      s.processLine = u.writeChain [last] := by
  obtain ⟨line, next, outer, last, hn, hne, htoken, hparts, hu, hp⟩ := h
  obtain ⟨c, text, ht⟩ := List.exists_cons_of_ne_nil hne
  have hc : ¬c = next.token := by
    rw [(nextLine?_eq hn).2.token]
    simpa [ht] using htoken
  have hchain : next.writeChain (chainParts line.trim) = u.writeChain [last] := by
    rw [hparts, writeChain_append (List.cons_ne_nil last []) hu]
  rw [ht] at hchain
  refine ⟨last, hp, ?_⟩
  rw [processLine, hn]
  simp only [ht, hc, if_false, hchain]

variable {after : State}

theorem ReachesLast.processLine_of_error (h : s.ReachesLast u element first) {e : CompileError}
    (hb : u.readBody first = (.error e, after)) : s.processLine = (.error e, after) := by
  obtain ⟨last, hp, hs⟩ := h.exists_processLine_eq
  rw [hs, writeChain, hp]
  simp only [hb]

theorem ReachesLast.processLine_of_ok (h : s.ReachesLast u element first) {body : Body}
    (hb : u.readBody first = (.ok body, after)) :
    s.processLine = (.ok (), after.writeElement { element with body }) := by
  obtain ⟨last, hp, hs⟩ := h.exists_processLine_eq
  rw [hs, writeChain, hp]
  simp only [hb]

end State

end IndentMarkup.Compile
