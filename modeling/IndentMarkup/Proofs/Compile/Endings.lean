import IndentMarkup.Proofs.Compile.Draft

/-! How lines end. Of a line, only the blanks in front and the trimmed text are looked at, so blanks
behind it do not show in the result, and a carriage return before a line feed is such a blank. -/
namespace IndentMarkup

namespace Text

/-- The text with a carriage return in front of every line feed. -/
def withReturns (t : Text) : Text :=
  t.flatMap fun c => if c = '\n' then ['\r', '\n'] else [c]

theorem withReturns_of_no_newline {line : Text} (h : '\n' ∉ line) : withReturns line = line := by
  have hc : ∀ c ∈ line, (if c = '\n' then ['\r', '\n'] else [c]) = [c] := by
    intro c hm
    have hne : c ≠ '\n' := fun he => h (he ▸ hm)
    exact if_neg hne
  rw [withReturns, List.flatMap_congr hc]
  exact List.flatMap_singleton' line

theorem withReturns_append_newline {line : Text} (h : '\n' ∉ line) (rest : Text) :
    withReturns (line ++ '\n' :: rest) = line ++ ['\r'] ++ '\n' :: withReturns rest := by
  have hl := withReturns_of_no_newline h
  simp only [withReturns] at hl ⊢
  simp [hl]

/-- What follows a line and is neither space nor tab leaves its indentation as it is. -/
theorem leadingBlanks_append_of_stop {rest : Text} (h : ∀ c ∈ rest.head?, isInlineBlank c = false)
    (line : Text) : leadingBlanks (line ++ rest) = leadingBlanks line := by
  have hr : leadingBlanks rest = [] := leadingBlanks_append (w := []) (by simp) h
  unfold leadingBlanks at hr ⊢
  rw [List.takeWhile_append]
  split_ifs with ht
  · rw [hr, List.append_nil, (List.takeWhile_prefix _).eq_of_length ht]
  · rfl

end Text

namespace Compile

variable {lines lines' : List Text}

theorem Entry.Related.eq {e e' : Entry} (h : e.Related Eq e') : e = e' := by
  obtain ⟨blanks, addition⟩ := e
  obtain ⟨blanks', addition'⟩ := e'
  obtain rfl : blanks = blanks' := h.blanks
  obtain rfl : addition' = addition := h.addition
  rfl

/-- Blanks behind the lines make no difference to what they say. -/
theorem entries_of_sameWords (token : Char) (number : Nat)
    (h : List.Forall₂ (SameWords Eq) lines lines') :
    entries token number lines' = entries token number lines := by
  rcases entries_related token number h with ⟨e, he, he'⟩ | ⟨es, es', he, he', hes⟩
  · rw [he, he']
  · have heq : es = es' := List.forall₂_eq_eq_eq ▸ hes.imp fun _ _ hr => hr.eq
    rw [he, he', heq]

/-- A carriage return stands behind the words of a line. -/
theorem sameWords_return (line : Text) : SameWords Eq line (line ++ ['\r']) := by
  have hstop : Text.isInlineBlank '\r' = false := by decide
  have hblank : Text.isBlank '\r' = true := by decide
  exact ⟨(Text.leadingBlanks_append_of_stop (by simpa using hstop) line).symm,
    Text.trim_append_blank (by simpa using hblank) line⟩

theorem sameWords_withReturns (t : Text) :
    List.Forall₂ (SameWords Eq) t.lines t.withReturns.lines := by
  induction t using Text.lines_induction with
  | last line h =>
    rw [Text.withReturns_of_no_newline h]
    exact List.forall₂_same.mpr fun l _ => ⟨rfl, rfl⟩
  | line line rest h ih =>
    have hr : '\n' ∉ line ++ ['\r'] := by simp [h]
    rw [Text.withReturns_append_newline h, Text.lines_append_newline h,
      Text.lines_append_newline hr]
    exact .cons (sameWords_return line) ih

/-- Sources with as many lines, which start with the same blanks and have the same words in them one
by one, compile alike. So a source compiles as it does with carriage returns at its line ends. -/
theorem compile_of_same_words (options : Options) (source : Text) :
    (∀ other : Text, List.Forall₂ (SameWords Eq) source.lines other.lines →
      compile options other = compile options source) ∧
    compile options source.withReturns = compile options source := by
  have h : ∀ other : Text, List.Forall₂ (SameWords Eq) source.lines other.lines →
      compile options other = compile options source := by
    intro other hl
    rw [compile_eq, compile_eq, entries_of_sameWords options.token 0 hl]
  exact ⟨h, h _ (sameWords_withReturns source)⟩

/-- Carriage returns, a tab and a wide space stand behind lines, one of which is folded into content
and one of which is empty but for them. -/
theorem compile_of_same_words_folded :
    let source : Text := "p <a\n  b>\n\n  q".toList
    compile {} source = .ok "<p>a b</p>\n  <q>\n  </q>\n".toList ∧
      compile {} "p <a \r\n  b>\u3000\n\r\n  q\t".toList =
        .ok "<p>a b</p>\n  <q>\n  </q>\n".toList ∧
      compile {} "p <a\r\n  b>\r\n\r\n  q".toList =
        .ok "<p>a b</p>\n  <q>\n  </q>\n".toList := by
  intro source
  have h : compile {} source = .ok "<p>a b</p>\n  <q>\n  </q>\n".toList := by decide +kernel
  obtain ⟨hother, hreturns⟩ := compile_of_same_words {} source
  have hl : List.Forall₂ (SameWords Eq) source.lines
      (Text.lines "p <a \r\n  b>\u3000\n\r\n  q\t".toList) :=
    .cons ⟨by decide, by decide⟩ <| .cons ⟨by decide, by decide⟩ <|
      .cons ⟨by decide, by decide⟩ <| .cons ⟨by decide, by decide⟩ .nil
  exact ⟨h, (hother _ hl).trans h, hreturns.trans h⟩

end Compile
end IndentMarkup
