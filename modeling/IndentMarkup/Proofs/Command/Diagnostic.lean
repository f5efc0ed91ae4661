import IndentMarkup.Command.Diagnostic
import IndentMarkup.Proofs.Compile.FailingLine
import IndentMarkup.Proofs.Source.LineIndex

/-! Diagnostics label the line that the compilation failed on. The compilation counts lines as it
takes them off the source, the diagnostic looks their bytes up in an index. -/
namespace IndentMarkup.Diagnostic
open Compile

theorem labels_ofError {source : Text} {e : CompileError} {span : Span}
    (h : (LineIndex.ofText source).lineSpan? e.line source = some span) :
    (ofError source e).labels =
      [⟨span.start.toNat, span.stop.toNat - span.start.toNat, e.code⟩] := by
  simp only [ofError, h]

/-- The diagnostic of a source that fails has one label. It lies in the source and covers the line
that the compilation was reading when it failed, less a carriage return at its end. What the error
is about stands on that line. -/
theorem label_covers_failing_line {options : Options} {source : Text} {e : CompileError}
    (hs : source.byteSize < 2 ^ 32) (h : compile options source = .error e) :
    ∃ (label : Label) (past : List LineRecord) (s : State) (line : Text),
      (ofError source e).labels = [label] ∧
      (initial options source).Reaches past s ∧ s.FailsOn line e ∧
      label.offset + label.size ≤ source.byteSize ∧
      source.slice? label.offset (label.offset + label.size) = some line.dropReturn ∧
      e.trigger <:+: line.dropReturn := by
  obtain ⟨past, s, line, hr, hf, hn, hl, ht⟩ := exists_failing_line h
  obtain ⟨before, after, span, rfl, hspan, hstart, hstop⟩ := LineIndex.lineSpan?_of_lines hs hl
  rw [← hn] at hspan
  have hlabels := labels_ofError hspan
  rw [hstart, hstop, Nat.add_sub_cancel_left] at hlabels
  refine ⟨_, past, s, line, hlabels, hr, hf, ?_, Text.slice?_append before _ after, ?_⟩
  · simp only [Text.byteSize_append]
    omega
  · rw [← Text.trim_dropReturn] at ht
    exact ht.trans (Text.trim_isInfix _)

/-- The third line is labelled, below content that takes two lines; letters take two bytes, and
carriage returns end the lines. -/
theorem label_covers_failing_line_returns :
    let source : Text := "ä <b\r\nc>\r\n  p x=é y=\x7b\x7b z\r\nq".toList
    let e := CompileError.unclosedPlaceholder .braces 3
    compile {} source = .error e ∧
      (ofError source e).labels = [⟨11, 15, "unmatched-template-delimiter".toList⟩] ∧
      source.slice? 11 26 = some "  p x=é y=\x7b\x7b z".toList ∧
      "=\x7b\x7b".toList <:+: "  p x=é y=\x7b\x7b z".toList := by
  intro source e
  have h : compile {} source = .error e := by decide +kernel
  have hlabels : (ofError source e).labels = [⟨11, 15, "unmatched-template-delimiter".toList⟩] := by
    decide +kernel
  have hslice : source.slice? 11 26 = some "  p x=é y=\x7b\x7b z".toList := by decide +kernel
  obtain ⟨label, past, s, line, hl, -, -, -, hline, ht⟩ :=
    label_covers_failing_line (by decide +kernel) h
  obtain rfl := List.singleton_inj.mp (hlabels.symm.trans hl)
  have hcovered := Option.some.inj (hslice.symm.trans hline)
  exact ⟨h, hlabels, hslice, hcovered ▸ ht⟩

end IndentMarkup.Diagnostic
