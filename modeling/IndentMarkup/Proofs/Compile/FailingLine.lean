import IndentMarkup.Proofs.Compile.Draft

/-! The line that an error points at: it is the line being read when the error comes up, and it
contains what the error is about. -/
namespace IndentMarkup

/-- What has to stand on a line to cause an error: the bracket that begins inline content, or a
placeholder in the place of a value. -/
def CompileError.trigger : CompileError → Text
  | unbalancedClosing _ => ['<']
  | unmatchedOpening _ => ['<']
  | unclosedPlaceholder p _ => '=' :: p.opener

namespace Compile

variable {part rest : Text} {n : Nat} {below : List Text} {e : CompileError}

theorem trigger_of_parseHead (h : parseHead n part = .error e) : e.trigger <:+: part := by
  rw [parseHead_eq_map] at h
  cases hp : Attribute.parse n (partTail part) with
  | error e' =>
    obtain rfl : e' = e := by simpa [hp, Except.map] using h
    obtain ⟨p, rfl, hi⟩ := Attribute.parse_error hp
    exact hi.trans (partTail_isInfix part)
  | ok r => simp [hp, Except.map] at h

theorem subset_of_parseHead {element : Element} (h : parseHead n part = .ok (element, rest)) :
    rest ⊆ part := by
  obtain ⟨attributes, hp, -⟩ := parseHead_eq_ok h
  exact List.Subset.trans (Attribute.parse_subset hp).2 (partTail_isInfix part).subset

theorem trigger_of_bodyOf (h : bodyOf rest n below = .error e) :
    e.trigger = ['<'] ∧ '<' ∈ rest := by
  unfold bodyOf at h
  split_ifs at h with hb hd hs
  · obtain rfl := Except.error.inj h
    exact ⟨rfl, List.mem_of_mem_head? hb⟩
  · obtain rfl := contentOf_error (Reading.map_eq_error.mp h)
    exact ⟨rfl, List.mem_of_mem_head? hb⟩
  · simp [Reading.done] at h
  · simp [Reading.done] at h

theorem trigger_of_elementsOf {parts : List Text} (h : elementsOf parts n below = .error e) :
    ∃ part ∈ parts, e.trigger <:+: part := by
  fun_induction elementsOf parts with
  | case1 => simp [Reading.done] at h
  | case2 last =>
    refine ⟨last, List.mem_singleton_self last, ?_⟩
    rcases Reading.head_eq_error h with hp | ⟨element, rest, hp, hb⟩
    · exact trigger_of_parseHead hp
    · obtain ⟨ht, hm⟩ := trigger_of_bodyOf (Reading.map_eq_error.mp hb)
      rw [ht, List.singleton_infix_iff]
      exact subset_of_parseHead hp hm
  | case3 part parts _ ih =>
    -- what stands behind the attributes of an outer element is not looked at
    rcases Reading.head_eq_error h with hp | ⟨element, rest, -, hr⟩
    · exact ⟨part, List.mem_cons_self, trigger_of_parseHead hp⟩
    · obtain ⟨other, hm, hi⟩ := ih (Reading.map_eq_error.mp hr)
      exact ⟨other, List.mem_cons_of_mem part hm, hi⟩

/-- A line that fails contains what its error is about, between the blanks around it. -/
theorem trigger_of_additionOf {token : Char} {line : Text}
    (h : additionOf token line n below = .error e) : e.trigger <:+: line.trim := by
  unfold additionOf at h
  cases ht : line.trim with
  | nil => simp [ht, Reading.done] at h
  | cons c text =>
    simp only [ht] at h
    split_ifs at h
    · simp [Reading.done] at h
    · obtain ⟨part, hm, hi⟩ := trigger_of_elementsOf (Reading.map_eq_error.mp h)
      exact hi.trans (State.infix_of_mem_chainParts hm)

namespace State

/-- The next step fails with an error, and the line that it reads first, which has the number that
the error names, is `line`. -/
structure FailsOn (s : State) (line : Text) (e : CompileError) : Prop where
  fails : s.step.1 = .error e
  reads : ∃ next, s.readLevel.closeTags.nextLine? = some (line, next) ∧ next.lineNumber = e.line

/-- Between two lines, a run has read whole lines and counted them. -/
theorem Reaches.lines_eq_drop {s t : State} {past : List LineRecord} (h : s.Reaches past t) :
    ∃ k, t.lines = s.lines.drop k ∧ t.lineNumber = s.lineNumber + k := by
  induction h with
  | start => exact ⟨0, rfl, rfl⟩
  | @line past t next _ he hs ih =>
    obtain ⟨k, hl, hn⟩ := ih
    obtain ⟨line, below, ht⟩ := exists_lines_of_not_atEnd he
    rcases step_cases ht with ⟨e, -, hf⟩ | ⟨addition, j, s', -, hf, -, -, hb, hm⟩
    · simp [hs] at hf
    · obtain rfl : next = s' := by simpa [hs] using hf
      refine ⟨k + (1 + j), ?_, by omega⟩
      rw [hb, ← List.drop_drop, ← hl, ht, Nat.add_comm, List.drop_succ_cons]

end State

/-- Where a source fails, the run comes to a line of the source that fails with the same error and
contains what it is about. -/
theorem exists_failing_line {options : Options} {source : Text}
    (h : compile options source = .error e) :
    ∃ past s line, (initial options source).Reaches past s ∧ s.FailsOn line e ∧
      e.line = s.lineNumber + 1 ∧ source.lines[s.lineNumber]? = some line ∧
      e.trigger <:+: line.trim := by
  obtain ⟨past, s, hs, he, hf⟩ := State.exists_of_run_error (run_of_compile_error h)
  obtain ⟨line, below, hl⟩ := State.exists_lines_of_not_atEnd he
  obtain ⟨k, hd, hk⟩ := hs.lines_eq_drop
  obtain ⟨next, hn, hp⟩ := State.nextLine?_of_cons (s := s.readLevel.closeTags) hl
  rcases State.step_cases hl with ⟨e', ha, hf'⟩ | ⟨addition, j, s', -, hf', -⟩
  · obtain rfl : e = e' := by simpa [hf] using hf'
    have hline := (lawful_additionOf s.token line).line_eq ha
    refine ⟨past, s, line, hs, ⟨hf, next, hn, hp.number.trans hline.symm⟩, hline, ?_,
      trigger_of_additionOf ha⟩
    -- the run has counted the lines that it has left behind, so its next line is next in the source
    have hzero : (initial options source).lineNumber = 0 := rfl
    have hsource : source.lines.drop s.lineNumber = line :: below := by
      rw [hk, hzero, Nat.zero_add]
      exact hd.symm.trans hl
    rw [← Nat.add_zero s.lineNumber, ← List.getElem?_drop, hsource]
    rfl
  · simp [hf'] at hf

end Compile
end IndentMarkup
