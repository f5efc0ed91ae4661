import IndentMarkup.Proofs.Compile.Draft

/-! Errors point at the first line that fails. The lines above it compile, and what stands below has
no part in the error, unless it could still close inline content that the line leaves open. -/
namespace IndentMarkup.Compile

variable {options : Options} {source : Text}

theorem compile_eq_error_iff {e : CompileError} :
    compile options source = .error e ↔ entries options.token 0 source.lines = .error e := by
  rw [compile_eq]
  cases entries options.token 0 source.lines <;> simp [Except.map]

theorem exists_compile_of_entries {es : List Entry}
    (h : entries options.token 0 source.lines = .ok es) :
    ∃ html, compile options source = .ok html := by
  rw [compile_eq, h]
  exact ⟨_, rfl⟩

/-- A line that fails below lines that can be read makes the source fail. -/
theorem compile_of_failing_line {front below : List Text} {line : Text} {es : List Entry}
    {e : CompileError} (hl : source.lines = front ++ line :: below)
    (hf : entries options.token 0 front = .ok es)
    (h : additionOf options.token line (front.length + 1) below = .error e) :
    compile options source = .error e := by
  rw [compile_eq_error_iff, hl, entries_append hf, Nat.zero_add, entries_cons_of_error h]
  rfl

/-- An error names a line of the source. What stands above that line compiles, and up to that line
the source fails in the same way, whether or not a line feed ends it. Unless the error is content
left open, every source that starts with the same lines fails so. -/
theorem error_at_first_failing_line {e : CompileError} (h : compile options source = .error e) :
    (1 ≤ e.line ∧ e.line ≤ source.lines.length) ∧
    (∀ front : Text, front.lines = source.lines.take (e.line - 1) →
      ∃ html, compile options front = .ok html) ∧
    (∀ front : Text, front.lines = source.lines.take e.line → compile options front = .error e) ∧
    ((∀ line, e ≠ .unmatchedOpening line) →
      ∀ other : Text, source.lines.take e.line <+: other.lines →
        compile options other = .error e) := by
  obtain ⟨front, line, below, es, hl, hn, hf, ha⟩ :=
    exists_of_entries_error (compile_eq_error_iff.mp h)
  rw [Nat.zero_add] at hn
  have hlaw := lawful_additionOf options.token line
  have habove : source.lines.take (e.line - 1) = front := by
    rw [hl, hn, Nat.add_sub_cancel, List.take_left]
  have hupto : source.lines.take e.line = front ++ [line] := by
    rw [hl, hn, List.take_append, List.take_of_length_le (by omega), Nat.add_sub_cancel_left]
    rfl
  refine ⟨⟨by omega, ?_⟩, fun text ht => ?_, fun text ht => ?_, fun hne other ho => ?_⟩
  · rw [hn, hl]
    simp
  · rw [habove] at ht
    exact exists_compile_of_entries (ht ▸ hf)
  · rw [hupto] at ht
    exact compile_of_failing_line ht hf (hn ▸ hlaw.fails_take ha 0)
  · obtain ⟨more, hm⟩ := ho
    rw [hupto, List.append_assoc] at hm
    exact compile_of_failing_line hm.symm hf (hn ▸ hlaw.fails_alone ha (hne _) more)

/-- A chain fails on the third line, below content that takes two lines. -/
theorem error_at_first_failing_line_chain :
    let source := "p <a\nb>\nq \\-\\ r x=\x7b\x7b y\nz <".toList
    compile {} source = .error (.unclosedPlaceholder .braces 3) ∧
      (∃ html, compile {} "p <a\nb>\n".toList = .ok html) ∧
      compile {} "p <a\nb>\nq \\-\\ r x=\x7b\x7b y".toList =
        .error (.unclosedPlaceholder .braces 3) ∧
      compile {} "p <a\nb>\nq \\-\\ r x=\x7b\x7b y\n >".toList =
        .error (.unclosedPlaceholder .braces 3) := by
  intro source
  have h : compile {} source = .error (.unclosedPlaceholder .braces 3) := by
    decide +kernel
  obtain ⟨-, habove, hupto, hother⟩ := error_at_first_failing_line h
  exact ⟨h, habove _ (by decide), hupto _ (by decide), hother (by simp) _ (by decide)⟩

end IndentMarkup.Compile
