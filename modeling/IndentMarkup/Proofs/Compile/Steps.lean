import IndentMarkup.Proofs.Compile.Draft
import IndentMarkup.Proofs.Compile.Layout
import IndentMarkup.Proofs.Text.Bytes

/-! The steps of a compilation, taken in any order and from any open tags. Each reads whole lines off
the source, or none, and counts them; it adds to the page, and leaves a unit that is set. -/
namespace IndentMarkup.Compile
open Html

/-- What can be done with a state. -/
inductive Step
  | readLevel
  | closeTags
  | processLine
  | nextLine
  | closeAll

namespace State

/-- Takes a step. A line that fails leaves what it has read and written before. -/
def perform (s : State) : Step → State
  | .readLevel => s.readLevel
  | .closeTags => s.closeTags
  | .processLine => s.processLine.2
  | .nextLine => (s.nextLine?.map Prod.snd).getD s
  | .closeAll => s.closeAll

/-- The second state comes from the first by reading a text: some lines, all whole, of which only the
last of the source may lack its line feed. -/
structure Advances (read : Text) (s s' : State) : Prop where
  remaining : s.remaining = read ++ s'.remaining
  offset : s'.offset = s.offset + read.byteSize
  lineNumber : s'.lineNumber = s.lineNumber + read.lines.length
  whole : (read = [] ∨ read.getLast? = some '\n') ∨ s'.remaining = []

variable {s s' s'' : State} {read read' : Text}

theorem Advances.of_same (hr : s'.remaining = s.remaining) (ho : s'.offset = s.offset)
    (hn : s'.lineNumber = s.lineNumber) : Advances [] s s' :=
  ⟨by simp [hr], by simp [ho], by simp [hn], .inl (.inl rfl)⟩

theorem Advances.refl (s : State) : Advances [] s s :=
  .of_same rfl rfl rfl

theorem Advances.lines_append (h : Advances read s s') (rest : Text) (hr : rest <+: s'.remaining) :
    Text.lines (read ++ rest) = read.lines ++ Text.lines rest := by
  rcases h.whole with hw | he
  · exact Text.lines_append hw rest
  · obtain rfl : rest = [] := by simpa [he] using hr
    simp

theorem Advances.trans (h : Advances read s s') (h' : Advances read' s' s'') :
    Advances (read ++ read') s s'' := by
  have hl := h.lines_append read' ⟨s''.remaining, h'.remaining.symm⟩
  refine ⟨?_, ?_, ?_, ?_⟩
  · rw [h.remaining, h'.remaining, List.append_assoc]
  · rw [h'.offset, h.offset, Text.byteSize_append, Nat.add_assoc]
  · rw [h'.lineNumber, h.lineNumber, hl, List.length_append, Nat.add_assoc]
  · rcases h'.whole with (rfl | hw) | he
    · rw [List.append_nil]
      rcases h.whole with hw | he
      · exact .inl hw
      · rw [h'.remaining, List.nil_append] at he
        exact .inr he
    · have hne : read' ≠ [] := by
        rintro rfl
        simp at hw
      exact .inl (.inr (by rw [List.getLast?_append_of_ne_nil read hne, hw]))
    · exact .inr he

/-- The lines that were read are those at the front. -/
theorem Advances.lines_eq (h : Advances read s s') : s.lines = read.lines ++ s'.lines := by
  rw [lines, h.remaining, h.lines_append s'.remaining (List.prefix_refl _), lines]

/-- Reading a line takes it and its line feed off the source. -/
theorem advances_nextLine? {line : Text} (h : s.nextLine? = some (line, s')) :
    ∃ read, Advances read s s' ∧ read ≠ [] := by
  unfold nextLine? at h
  split at h
  · simp at h
  · next he =>
    obtain ⟨rfl, rfl⟩ := by simpa using h
    have hne : s.remaining ≠ [] := by simpa [atEnd] using he
    have hn := Text.newline_notMem_takeWhile s.remaining
    have hsplit : s.remaining.takeWhile (· != '\n') ++ s.remaining.dropWhile (· != '\n') =
        s.remaining := List.takeWhile_append_dropWhile
    cases hd : s.remaining.dropWhile (· != '\n') with
    | nil =>
      rw [hd, List.append_nil] at hsplit
      rw [hsplit] at hn
      refine ⟨s.remaining, ⟨by simp, by simp [hsplit], ?_, .inr (by simp)⟩, hne⟩
      simp [Text.lines_of_no_newline hn hne]
    | cons c rest =>
      obtain rfl : c = '\n' := by
        have := List.head?_dropWhile_not (· != '\n') s.remaining
        simpa [hd] using this
      refine ⟨s.remaining.takeWhile (· != '\n') ++ ['\n'], ⟨?_, ?_, ?_, .inl (.inr (by simp))⟩,
        by simp⟩
      · rw [hd] at hsplit
        simpa using hsplit.symm
      · simp [Text.byteSize_append, Nat.add_assoc]
      · have := Text.lines_append_newline hn []
        simp [this]

theorem exists_advances_foldLines (depth : Int) (content : Text) (s : State) :
    ∃ read, Advances read s (s.foldLines depth content).2 := by
  fun_induction foldLines depth content s with
  | case1 depth content s => exact ⟨[], .refl s⟩
  | case2 depth content s => exact ⟨[], .refl s⟩
  | case3 depth content s hd line next h ih =>
    obtain ⟨read, hn, -⟩ := advances_nextLine? h
    obtain ⟨read', hr⟩ := ih
    exact ⟨read ++ read', hn.trans hr⟩

theorem exists_advances_readBody (s : State) (rest : Text) :
    ∃ read, Advances read s (s.readBody rest).2 := by
  have h := s.exists_advances_foldLines rest.bracketLevel rest
  unfold readBody
  split
  · dsimp only
    split
    · exact ⟨[], .refl s⟩
    · split <;> next hf => simpa [hf] using h
  · split <;> exact ⟨[], .refl s⟩

/-- A chain that fails has read as many lines as it needed to find out. -/
theorem exists_advances_writeChain (parts : List Text) (s : State) :
    ∃ read, Advances read s (s.writeChain parts).2 := by
  fun_induction writeChain parts s with
  | case1 s => exact ⟨[], .refl s⟩
  | case2 part s e hp => exact ⟨[], .refl s⟩
  | case3 part s element rest hp e after hb =>
    obtain ⟨read, h⟩ := s.exists_advances_readBody rest
    rw [hb] at h
    exact ⟨read, h⟩
  | case4 part s element rest hp body after hb =>
    obtain ⟨read, h⟩ := s.exists_advances_readBody rest
    rw [hb] at h
    exact ⟨read, h.remaining, h.offset, h.lineNumber, h.whole⟩
  | case5 part parts s hne e hp => exact ⟨[], .refl s⟩
  | case6 part parts s hne element rest hp ih =>
    obtain ⟨read, h⟩ := ih
    exact ⟨read, h.remaining, h.offset, h.lineNumber, h.whole⟩

theorem processLine_of_atEnd (h : s.atEnd = true) : s.processLine = (.ok (), s) := by
  rw [processLine, nextLine?, if_pos h]

/-- Unless the source is at its end, processing a line reads it, whether it fails or not. -/
theorem exists_advances_processLine (h : s.atEnd = false) :
    ∃ read, Advances read s s.processLine.2 ∧ read ≠ [] := by
  unfold processLine
  split
  · next hn => simp [nextLine?, h] at hn
  · next line next hn =>
    obtain ⟨read, hr, hne⟩ := advances_nextLine? hn
    split
    · exact ⟨read, hr, hne⟩
    · next c text ht =>
      split_ifs
      · exact ⟨read, ⟨hr.remaining, hr.offset, hr.lineNumber, hr.whole⟩, hne⟩
      · obtain ⟨read', hr'⟩ := next.exists_advances_writeChain (chainParts (c :: text))
        exact ⟨read ++ read', hr.trans hr', by simp [hne]⟩

theorem exists_advances_perform (s : State) (step : Step) :
    ∃ read, Advances read s (s.perform step) := by
  cases step with
  | readLevel => exact ⟨[], .of_same rfl rfl rfl⟩
  | closeTags => exact ⟨[], .of_same rfl rfl rfl⟩
  | processLine =>
    cases he : s.atEnd with
    | true =>
      rw [perform, processLine_of_atEnd he]
      exact ⟨[], .refl s⟩
    | false =>
      obtain ⟨read, h, -⟩ := exists_advances_processLine he
      exact ⟨read, h⟩
  | nextLine =>
    unfold perform
    cases hn : s.nextLine? with
    | none => exact ⟨[], .refl s⟩
    | some r =>
      obtain ⟨read, h, -⟩ := advances_nextLine? hn
      exact ⟨read, h⟩
  | closeAll => exact ⟨[], .of_same rfl rfl rfl⟩

/-- Whatever steps are taken, what is read is a front of the source. -/
theorem exists_advances_foldl (steps : List Step) (s : State) :
    ∃ read, Advances read s (steps.foldl perform s) := by
  induction steps generalizing s with
  | nil => exact ⟨[], .refl s⟩
  | cons step steps ih =>
    obtain ⟨read, h⟩ := s.exists_advances_perform step
    obtain ⟨read', h'⟩ := ih (s.perform step)
    exact ⟨read ++ read', h.trans h'⟩

theorem lines_prefix_closeWhile (p : Page) (unit : Text) (due : OpenTag → Bool) :
    p.lines.toList <+: (p.closeWhile unit due).lines.toList := by
  rw [Page.lines_closeWhile]
  exact List.prefix_append ..

/-- A step that reads a line or sets the level writes nothing, and any other only adds. -/
theorem lines_prefix_perform (s : State) (step : Step) :
    s.page.lines.toList <+: (s.perform step).page.lines.toList := by
  cases step with
  | readLevel => exact List.prefix_refl _
  | closeTags => exact lines_prefix_closeWhile ..
  | processLine =>
    obtain ⟨addition, -, hp, -⟩ := s.processLine_page
    rw [perform, hp, Addition.lines_write]
    exact List.prefix_append ..
  | nextLine =>
    unfold perform
    cases hn : s.nextLine? with
    | none => exact List.prefix_refl _
    | some r =>
      have hp : r.2.page = s.page := (nextLine?_eq hn).2.page
      exact hp ▸ List.prefix_refl _
  | closeAll => exact lines_prefix_closeWhile ..

theorem lines_prefix_foldl (s : State) (steps : List Step) :
    s.page.lines.toList <+: (steps.foldl perform s).page.lines.toList := by
  induction steps generalizing s with
  | nil => exact List.prefix_refl _
  | cons step steps ih => exact (s.lines_prefix_perform step).trans (ih (s.perform step))

theorem perform_unit (h : s.unit ≠ []) (step : Step) : (s.perform step).unit = s.unit := by
  cases step with
  | readLevel => exact readLevel_unit h
  | closeTags => rfl
  | processLine =>
    obtain ⟨addition, -, -, hi, -⟩ := s.processLine_page
    exact congrArg Indentation.unit hi
  | nextLine =>
    unfold perform
    cases hn : s.nextLine? with
    | none => rfl
    | some r => exact congrArg Indentation.unit (nextLine?_eq hn).2.indentation
  | closeAll => rfl

/-- A unit that is set stays, whatever steps are taken. -/
theorem foldl_unit (h : s.unit ≠ []) (steps : List Step) :
    (steps.foldl perform s).unit = s.unit := by
  induction steps generalizing s with
  | nil => rfl
  | cons step steps ih =>
    have hu := perform_unit h step
    exact (ih (hu ▸ h)).trans hu

/-- A state has read a front of a source: nothing, everything, or up to a line feed. Its line number
is the number of line feeds read, and counts a last line without one when the source is at its end.
-/
structure HasRead (source front : Text) (s : State) : Prop where
  source_eq : source = front ++ s.remaining
  offset_eq : s.offset = front.byteSize
  whole : front = [] ∨ front = source ∨ front.getLast? = some '\n'
  lineNumber_eq : s.lineNumber = front.count '\n' +
    if front = source ∧ source ≠ [] ∧ source.getLast? ≠ some '\n' then 1 else 0

theorem Advances.hasRead (h : Advances read s s') (ho : s.offset = 0) (hn : s.lineNumber = 0) :
    s'.HasRead s.remaining read := by
  have hall : read = s.remaining ↔ s'.remaining = [] := by
    rw [h.remaining]
    simp
  refine ⟨h.remaining, by rw [h.offset, ho, Nat.zero_add], ?_, ?_⟩
  · rcases h.whole with (hw | hw) | he
    · exact .inl hw
    · exact .inr (.inr hw)
    · exact .inr (.inl (hall.mpr he))
  · rw [h.lineNumber, hn, Nat.zero_add, Text.length_lines]
    congr 1
    by_cases he : read = s.remaining
    · rw [← he]
      split_ifs <;> simp_all
    · have hw : read = [] ∨ read.getLast? = some '\n' := by
        rcases h.whole with hw | hw
        · exact hw
        · exact absurd (hall.mpr hw) he
      simp [he, hw]

end State

/-- A compilation that starts with any unit, level and open tags. -/
def preset (options : Options) (source unit : Text) (level : Nat) (openTags : List OpenTag) :
    State :=
  { initial options source with indentation := ⟨unit⟩, level, page := { openTags } }

/-- Whatever steps are taken from the start of a source, in whatever order: the position is at the
start of a line or at the end, and the line number counts the lines before it; further steps only
add to the output, and do not change a unit that is set; and processing a line reads at least one,
even if it fails, except at the end, where it does nothing. -/
theorem steps_keep_place (options : Options) (source unit : Text) (level : Nat)
    (openTags : List OpenTag) (steps : List Step) :
    let s := steps.foldl State.perform (preset options source unit level openTags)
    ((∃ front, s.HasRead source front) ∧ s.offset ≤ source.byteSize ∧
      source.dropBytes? s.offset = some s.remaining) ∧
    (∀ more : List Step, s.page.render options.compress <+:
      (more.foldl State.perform s).page.render options.compress) ∧
    (s.unit ≠ [] → ∀ more : List Step, (more.foldl State.perform s).unit = s.unit) ∧
    (s.atEnd = false → ∃ k, 1 ≤ k ∧ k ≤ s.lines.length ∧
      s.processLine.2.lines = s.lines.drop k ∧ s.processLine.2.lineNumber = s.lineNumber + k) ∧
    (s.atEnd = true → s.processLine = (.ok (), s)) := by
  intro s
  obtain ⟨front, hf⟩ := (preset options source unit level openTags).exists_advances_foldl steps
  have hread : s.HasRead source front := hf.hasRead rfl rfl
  have hsize : s.offset ≤ source.byteSize := by
    rw [hread.offset_eq, hread.source_eq, Text.byteSize_append]
    exact Nat.le_add_right ..
  have hdrop : source.dropBytes? s.offset = some s.remaining := by
    conv_lhs => rw [hread.offset_eq, hread.source_eq]
    exact Text.dropBytes?_append front s.remaining
  refine ⟨⟨⟨front, hread⟩, hsize, hdrop⟩, fun more => ?_, State.foldl_unit, fun he => ?_,
    State.processLine_of_atEnd⟩
  · exact (s.lines_prefix_foldl more).flatMap (Line.render options.compress)
  · obtain ⟨read, hr, hne⟩ := State.exists_advances_processLine he
    have hl := hr.lines_eq
    have hpos : read.lines ≠ [] := mt Text.lines_eq_nil_iff.mp hne
    refine ⟨read.lines.length, List.length_pos_iff.mpr hpos, ?_, ?_, hr.lineNumber⟩
    · rw [hl, List.length_append]
      exact Nat.le_add_right ..
    · rw [hl, List.drop_left]

/-- The second line starts content that the source ends in. It fails, with both of its lines read;
then there is nothing left to do. -/
theorem steps_keep_place_failing :
    let start := preset {} "ä\np \\-\\ q <é\nr".toList "\t".toList 3 [⟨2, "ul".toList⟩]
    let s := [Step.closeAll, .nextLine, .readLevel].foldl State.perform start
    let t := [Step.closeAll, .nextLine, .readLevel, .processLine].foldl State.perform start
    s.offset = 3 ∧ s.processLine.1 = .error (.unmatchedOpening 2) ∧
      (∃ k, 1 ≤ k ∧ k ≤ s.lines.length ∧ s.processLine.2.lines = s.lines.drop k ∧
        s.processLine.2.lineNumber = s.lineNumber + k) ∧
      (∀ more : List Step, (more.foldl State.perform s).unit = s.unit) ∧
      t.processLine = (.ok (), t) := by
  have hplace := steps_keep_place {} "ä\np \\-\\ q <é\nr".toList "\t".toList 3 [⟨2, "ul".toList⟩]
  have hs := hplace [.closeAll, .nextLine, .readLevel]
  have ht := hplace [.closeAll, .nextLine, .readLevel, .processLine]
  exact ⟨by decide +kernel, by decide +kernel, hs.2.2.2.1 (by decide +kernel),
    hs.2.2.1 (by decide +kernel), ht.2.2.2.2 (by decide +kernel)⟩

end IndentMarkup.Compile
