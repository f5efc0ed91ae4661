import IndentMarkup.Proofs.Compile.Line

/-! Runs line by line: the states between the lines, and the record of the lines before them. -/
namespace IndentMarkup.Compile
open Html

/-- What a line did: the level it stands at, and the tags it opened, innermost first. -/
structure LineRecord where
  level : Nat
  opened : List OpenTag

namespace State

/-- The tags that the next line puts on top of those it leaves open. -/
def opened (s : State) : List OpenTag :=
  s.step.2.page.openTags.take
    (s.step.2.page.openTags.length - s.readLevel.closeTags.page.openTags.length)

/-- The record of the next line. -/
def record (s : State) : LineRecord :=
  ⟨s.readLevel.level, s.opened⟩

/-- The states that a run from `s` is in between two lines, each with the lines before it. A line
goes from its first to its last line of source, and blank lines count. -/
inductive Reaches (s : State) : List LineRecord → State → Prop
  | start : Reaches s [] s
  | line {past : List LineRecord} {t next : State} : Reaches s past t → t.atEnd = false →
      t.step = (.ok (), next) → Reaches s (past ++ [t.record]) next

theorem run_of_atEnd {s : State} (h : s.atEnd = true) : s.run = .ok s.closeAll := by
  rw [run]
  simp [h]

theorem run_of_step {s next : State} (h : s.atEnd = false) (hs : s.step = (.ok (), next)) :
    s.run = next.run := by
  rw [run]
  simp only [h, Bool.false_eq_true, dite_false]
  split <;> simp_all

theorem run_of_error {s : State} {e : CompileError} (h : s.atEnd = false)
    (hs : s.step.1 = .error e) : s.run = .error e := by
  rw [run]
  simp only [h, Bool.false_eq_true, dite_false]
  split <;> simp_all

theorem Reaches.run_eq {s t : State} {past : List LineRecord} (h : Reaches s past t) :
    s.run = t.run := by
  induction h with
  | start => rfl
  | line _ he hs ih => rw [ih, run_of_step he hs]

theorem Reaches.cons {s t next : State} {past : List LineRecord} (he : s.atEnd = false)
    (hs : s.step = (.ok (), next)) (h : Reaches next past t) :
    Reaches s (s.record :: past) t := by
  induction h with
  | start =>
    change Reaches s ([] ++ [s.record]) next
    exact .line .start he hs
  | @line past t last _ he' hs' ih => exact .line ih he' hs'

/-- A run comes to the end of the source, or to a line that fails. -/
theorem exists_reaches (s : State) :
    ∃ past t, Reaches s past t ∧
      (t.atEnd = true ∨ t.atEnd = false ∧ ∃ e, t.step.1 = .error e) := by
  fun_induction run s with
  | case1 s h => exact ⟨[], s, .start, .inl h⟩
  | case2 s h e after hs => exact ⟨[], s, .start, .inr ⟨by simpa using h, e, by simp [hs]⟩⟩
  | case3 s h next hs ih =>
    obtain ⟨past, t, hr, ht⟩ := ih
    exact ⟨_, t, hr.cons (by simpa using h) hs, ht⟩

/-- A run that succeeds closes all tags where the source ends. -/
theorem exists_of_run {s last : State} (h : s.run = .ok last) :
    ∃ past t, Reaches s past t ∧ t.atEnd = true ∧ last = t.closeAll := by
  obtain ⟨past, t, hr, he | ⟨he, e, hs⟩⟩ := s.exists_reaches
  · rw [hr.run_eq, run_of_atEnd he] at h
    exact ⟨past, t, hr, he, (Except.ok.inj h).symm⟩
  · rw [hr.run_eq, run_of_error he hs] at h
    simp at h

/-- A run that fails comes to a line that fails in the same way. -/
theorem exists_of_run_error {s : State} {e : CompileError} (h : s.run = .error e) :
    ∃ past t, Reaches s past t ∧ t.atEnd = false ∧ t.step.1 = .error e := by
  obtain ⟨past, t, hr, he | ⟨he, e', hs⟩⟩ := s.exists_reaches
  · rw [hr.run_eq, run_of_atEnd he] at h
    simp at h
  · rw [hr.run_eq, run_of_error he hs] at h
    obtain rfl := Except.error.inj h
    exact ⟨past, t, hr, he, hs⟩

end State

theorem compile_of_run {options : Options} {source : Text} {s : State}
    (h : (initial options source).run = .ok s) :
    compile options source = .ok (s.page.render options.compress) := by
  rw [compile, h]
  rfl

theorem compile_of_error {options : Options} {source : Text} {e : CompileError}
    (h : (initial options source).run = .error e) : compile options source = .error e := by
  rw [compile, h]
  rfl

/-- What compiles is the page that a run leaves. -/
theorem exists_of_compile {options : Options} {source out : Text}
    (h : compile options source = .ok out) :
    ∃ s, (initial options source).run = .ok s ∧ s.page.render options.compress = out := by
  cases hr : (initial options source).run with
  | error e =>
    rw [compile_of_error hr] at h
    simp at h
  | ok s =>
    rw [compile_of_run hr] at h
    exact ⟨s, rfl, Except.ok.inj h⟩

theorem run_of_compile_error {options : Options} {source : Text} {e : CompileError}
    (h : compile options source = .error e) : (initial options source).run = .error e := by
  cases hr : (initial options source).run with
  | error e' =>
    rw [compile_of_error hr] at h
    rw [Except.error.inj h]
  | ok s =>
    rw [compile_of_run hr] at h
    simp at h

end IndentMarkup.Compile
