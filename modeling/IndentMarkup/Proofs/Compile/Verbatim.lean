import IndentMarkup.Proofs.Compile.Append

/-! Verbatim lines. The text behind the token goes to the page as it stands: it opens no tags, takes
no lines and sets no level, so all around it comes out the same whatever the text is. -/
namespace IndentMarkup.Compile
open Html Text

variable {token : Char} {w : Text}

/-- A verbatim line is read alone, and says the text behind its token. -/
theorem additionOf_verbatim (hw : ∀ c ∈ w, isInlineBlank c = true) (ht : isBlank token = false)
    (x : Text) : additionOf token (w ++ token :: x) = .done (.verbatim x.trimEnd) := by
  have hblank : ∀ c ∈ w, isBlank c = true := fun c hc => isBlank_of_isInlineBlank (hw c hc)
  have hstart : trimStart (token :: x) = token :: x := trimStart_eq_self (by simpa using ht)
  have htrim : trim (w ++ token :: x) = token :: trimEnd x := by
    rw [trim_blank_append hblank, trim, hstart, trimEnd_cons ht]
  unfold additionOf
  simp [htrim]

theorem entries_verbatim (hw : ∀ c ∈ w, isInlineBlank c = true) (ht : isBlank token = false)
    (x : Text) (number : Nat) (below : List Text) :
    entries token number ((w ++ token :: x) :: below) =
      (entries token (number + 1) below).map (⟨w, .verbatim x.trimEnd⟩ :: ·) := by
  have ha : additionOf token (w ++ token :: x) (number + 1) below = .ok (.verbatim x.trimEnd, 0) := by
    rw [additionOf_verbatim hw ht]
    rfl
  have hblanks : leadingBlanks (w ++ token :: x) = w :=
    leadingBlanks_append hw (by simpa using isInlineBlank_of_not_isBlank ht)
  rw [entries_cons_of_ok ha, hblanks]
  rfl

namespace Draft

/-- The draft of a page that is empty but for the open tags. -/
def cleared (d : Draft) : Draft :=
  ⟨d.indentation, { openTags := d.page.openTags }⟩

theorem below_cleared (d : Draft) : Below d.page.lines.toList d.cleared d :=
  ⟨rfl, rfl, by simp [cleared]⟩

/-- What is laid out later comes behind what is on the page. -/
theorem render_foldl_add (d : Draft) (es : List Entry) (compress : Bool) :
    (es.foldl Draft.add d).finish.page.render compress =
      d.page.render compress ++ (es.foldl Draft.add d.cleared).finish.page.render compress :=
  Page.render_of_lines (d.below_cleared.foldl es).finish compress

/-- A verbatim text shows on its own line of the page only. -/
theorem cleared_add_verbatim (d : Draft) (w t t' : Text) :
    (d.add ⟨w, .verbatim t⟩).cleared = (d.add ⟨w, .verbatim t'⟩).cleared := rfl

theorem exists_render_add_verbatim (d : Draft) (w : Text) (compress : Bool) :
    ∃ before after : Text, ∀ t, (d.add ⟨w, .verbatim t⟩).page.render compress =
      before ++ t ++ after := by
  let i := (d.indentation.levelOf w).2
  let level := (d.indentation.levelOf w).1
  let closed := d.page.closeFrom i.unit level
  have hrender : ∀ t, (d.add ⟨w, .verbatim t⟩).page.render compress =
      closed.render compress ++ row compress i.unit level t := by
    intro t
    change (closed.writeVerbatim i.unit level t).render compress = _
    simp [Page.render, Line.render_eq, Piece.render]
  cases compress with
  | true => exact ⟨closed.render true, [], fun t => by simp [hrender, row]⟩
  | false =>
    exact ⟨closed.render false ++ (List.replicate level i.unit).flatten, ['\n'],
      fun t => by simp [hrender, row]⟩

end Draft

/-- A source with a verbatim line in it. -/
def verbatimSource (token : Char) (front w x back : Text) : Text :=
  front ++ (w ++ token :: x ++ '\n' :: back)

theorem compile_verbatimSource {options : Options} {front : Text} {es : List Entry}
    (hf : front = [] ∨ front.getLast? = some '\n')
    (hes : entries options.token 0 front.lines = .ok es)
    (hw : ∀ c ∈ w, isInlineBlank c = true) (ht : isBlank options.token = false) (back : Text)
    {x : Text} (hx : '\n' ∉ x) :
    compile options (verbatimSource options.token front w x back) =
      (entries options.token (front.lines.length + 1) back.lines).map fun more =>
        (more.foldl Draft.add ((es.foldl Draft.add {}).add ⟨w, .verbatim x.trimEnd⟩)
          ).finish.page.render options.compress := by
  have hwn : '\n' ∉ w := fun hm => absurd (hw _ hm) (by decide)
  have htn : '\n' ≠ options.token := by
    intro he
    exact absurd (he ▸ ht) (by decide)
  have hlines : lines (w ++ options.token :: x ++ '\n' :: back) =
      (w ++ options.token :: x) :: lines back :=
    lines_append_newline (by simp [hwn, htn, hx]) back
  rw [verbatimSource, compile_append_eq hf hes, hlines, entries_verbatim hw ht]
  cases entries options.token (front.lines.length + 1) back.lines <;> rfl

/-- The text of a verbatim line is not interpreted. Behind a source that compiles and ends with a
line feed, and in front of any other, either every such text compiles, and only itself changes in
the output, less the blanks at its end; or none does, all for the same reason. -/
theorem compile_verbatim {options : Options} {front w html : Text}
    (hf : front = [] ∨ front.getLast? = some '\n') (hc : compile options front = .ok html)
    (hw : ∀ c ∈ w, c = ' ' ∨ c = '\t') (ht : isBlank options.token = false) (back : Text) :
    (∃ before after : Text, ∀ x : Text, '\n' ∉ x →
      compile options (verbatimSource options.token front w x back) =
        .ok (before ++ x.trimEnd ++ after)) ∨
    ∃ e, ∀ x : Text, '\n' ∉ x →
      compile options (verbatimSource options.token front w x back) = .error e := by
  obtain ⟨es, hes⟩ := exists_entries_of_compile hc
  have hblank : ∀ c ∈ w, isInlineBlank c = true := by simpa [isInlineBlank] using hw
  cases hb : entries options.token (front.lines.length + 1) back.lines with
  | error e =>
    right
    refine ⟨e, fun x hx => ?_⟩
    rw [compile_verbatimSource hf hes hblank ht back hx, hb]
    rfl
  | ok more =>
    left
    let d := es.foldl Draft.add {}
    obtain ⟨before, after, hrender⟩ := d.exists_render_add_verbatim w options.compress
    -- what comes later does not depend on the text, so it is that behind the empty text
    let rest := (more.foldl Draft.add (d.add ⟨w, .verbatim []⟩).cleared).finish.page.render
      options.compress
    refine ⟨before, after ++ rest, fun x hx => ?_⟩
    have hrest : (more.foldl Draft.add (d.add ⟨w, .verbatim x.trimEnd⟩)).finish.page.render
        options.compress = before ++ x.trimEnd ++ (after ++ rest) := by
      rw [Draft.render_foldl_add, hrender, d.cleared_add_verbatim w x.trimEnd [],
        List.append_assoc]
    rw [compile_verbatimSource hf hes hblank ht back hx, hb]
    exact congrArg Except.ok hrest

/-- Brackets, a chain mark, an open placeholder and the token itself go through, between an open
element and content of several lines. -/
theorem compile_verbatim_markup :
    ∃ before after : Text,
      (∀ x : Text, '\n' ∉ x → compile {} (verbatimSource '\x60' "p\n  q\n".toList "    ".toList x
        "r <a\nb>".toList) = .ok (before ++ x.trimEnd ++ after)) ∧
      before ++ "\x60<b \\-\\ x=\x7b\x7b >>".toList ++ after =
        "<p>\n  <q>\n    \x60<b \\-\\ x=\x7b\x7b >>\n  </q>\n</p>\n<r>a b</r>\n".toList := by
  have hc : compile {} "p\n  q\n".toList = .ok "<p>\n  <q>\n  </q>\n</p>\n".toList := by
    decide +kernel
  have hx : compile {} (verbatimSource '\x60' "p\n  q\n".toList "    ".toList
      "\x60<b \\-\\ x=\x7b\x7b >> \t".toList "r <a\nb>".toList) =
      .ok "<p>\n  <q>\n    \x60<b \\-\\ x=\x7b\x7b >>\n  </q>\n</p>\n<r>a b</r>\n".toList := by
    decide +kernel
  rcases compile_verbatim (.inr (by decide)) hc (w := "    ".toList) (by simp) (by decide)
    "r <a\nb>".toList with ⟨before, after, h⟩ | ⟨e, h⟩
  · exact ⟨before, after, h, Except.ok.inj ((h _ (by decide)).symm.trans hx)⟩
  · have := (h _ (by decide)).symm.trans hx
    simp at this

end IndentMarkup.Compile
