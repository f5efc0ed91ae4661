import IndentMarkup.Proofs.Compile.Draft

/-! Compiling a source piece by piece. At a line that is not indented all open tags are closed, so
from there on only the unit and the number of lines above are left of what was read before. -/
namespace IndentMarkup

theorem Html.Page.render_of_lines {p q r : Page}
    (h : p.lines.toList = q.lines.toList ++ r.lines.toList) (compress : Bool) :
    p.render compress = q.render compress ++ r.render compress := by
  rw [render, h, List.flatMap_append, render, render]

namespace Compile
open Html

namespace Draft

/-- A draft with the same tags open as another, and more lines above. -/
structure Below (above : List Line) (d d' : Draft) : Prop where
  indentation : d'.indentation = d.indentation
  openTags : d'.page.openTags = d.page.openTags
  lines : d'.page.lines.toList = above ++ d.page.lines.toList

variable {above : List Line} {d d' : Draft}

theorem Below.add (h : Below above d d') (e : Entry) : Below above (d.add e) (d'.add e) := by
  have hl : d'.levelOf e = d.levelOf e := by rw [levelOf, h.indentation, levelOf]
  have hi : (d'.add e).indentation = (d.add e).indentation := by
    change (d'.indentation.levelOf e.blanks).2 = _
    rw [h.indentation]
    rfl
  refine ⟨hi, ?_, ?_⟩
  · rw [add_openTags, add_openTags, hl, h.openTags]
  · rw [add_lines, add_lines, hl, hi, h.openTags, h.lines]
    simp only [List.append_assoc]

theorem Below.foldl (h : Below above d d') (es : List Entry) :
    Below above (es.foldl Draft.add d) (es.foldl Draft.add d') := by
  induction es generalizing d d' with
  | nil => exact h
  | cons e es ih => exact ih (h.add e)

theorem Below.finish (h : Below above d d') :
    d'.finish.page.lines.toList = above ++ d.finish.page.lines.toList := by
  rw [finish_lines, finish_lines, h.lines, h.openTags, h.indentation, List.append_assoc]

/-- An entry that is not indented closes what the end of the source would close. -/
theorem below_of_not_indented (d : Draft) {e : Entry} (h : e.blanks = []) :
    Below d.finish.page.lines.toList (add ⟨d.indentation, {}⟩ e) (d.add e) := by
  have hlevel : ∀ d : Draft, d.levelOf e = 0 ∧ (d.add e).indentation = d.indentation := by
    intro d
    simp [levelOf, add, Indentation.levelOf, h, Text.leadingBlanks]
  have hdue : ∀ t : OpenTag, decide (0 ≤ t.level) = true := by simp
  refine ⟨by rw [(hlevel d).2, (hlevel _).2], ?_, ?_⟩
  · rw [add_openTags, add_openTags, (hlevel d).1, (hlevel _).1,
      List.dropWhile_eq_nil_iff.mpr fun t _ => hdue t]
    rfl
  · rw [add_lines, add_lines, (hlevel d).1, (hlevel d).2, (hlevel _).1, (hlevel _).2,
      List.takeWhile_eq_self_iff.mpr fun t _ => hdue t, finish_lines]
    rfl

end Draft

/-- Compiles a source whose unit is known from the start. -/
def compileWithUnit (options : Options) (unit source : Text) : Except CompileError Text :=
  State.run { initial options source with indentation := ⟨unit⟩ } |>.map fun s =>
    s.page.render options.compress

theorem compileWithUnit_eq (options : Options) (unit source : Text) :
    compileWithUnit options unit source = (entries options.token 0 source.lines).map fun es =>
      (es.foldl Draft.add ⟨⟨unit⟩, {}⟩).finish.page.render options.compress :=
  State.run_render { initial options source with indentation := ⟨unit⟩ } options.compress

theorem head_of_entries {token : Char} {number : Nat} {line : Text} {below : List Text}
    {es : List Entry} (h : entries token number (line :: below) = .ok es) :
    ∃ e rest, es = e :: rest ∧ e.blanks = line.leadingBlanks := by
  cases ha : additionOf token line (number + 1) below with
  | error e => simp [entries_cons_of_error ha] at h
  | ok r =>
    obtain ⟨addition, k⟩ := r
    rw [entries_cons_of_ok ha] at h
    cases hr : entries token (number + 1 + k) (below.drop k) with
    | error e => simp [hr, Except.map] at h
    | ok rest =>
      obtain rfl : _ :: rest = es := by simpa [hr, Except.map] using h
      exact ⟨_, rest, rfl, rfl⟩

/-- Behind a source that ends with a line feed, a text that does not start with an indented line
compiles as it does alone with the unit of that source. Its output follows that source's output, and
its errors are as many lines further down. -/
theorem compile_append {options : Options} {a b oa u : Text}
    (ha : a = [] ∨ a.getLast? = some '\n') (hoa : compile options a = .ok oa)
    (hu : (initial options a).run.map State.unit = .ok u) (hb : b ≠ [])
    (hc : ∀ c ∈ b.head?, c ≠ ' ' ∧ c ≠ '\t') :
    (∀ ob, compileWithUnit options u b = .ok ob → compile options (a ++ b) = .ok (oa ++ ob)) ∧
    ∀ e, compileWithUnit options u b = .error e →
      compile options (a ++ b) = .error (e.later a.lines.length) := by
  obtain ⟨s, hs, rfl⟩ := exists_of_compile hoa
  obtain rfl : s.unit = u := by simpa [hs, Except.map] using hu
  obtain ⟨ea, hea, hd⟩ := State.exists_entries_of_run hs
  change entries options.token 0 a.lines = .ok ea at hea
  -- the unit that is left is the one that the tags are closed with
  have hi : s.indentation = (ea.foldl Draft.add {}).indentation := congrArg Draft.indentation hd
  have hp : s.page = (ea.foldl Draft.add {}).finish.page := congrArg Draft.page hd
  have hboth : entries options.token 0 (a ++ b).lines =
      ((entries options.token 0 b.lines).mapError (·.later a.lines.length)).map (ea ++ ·) := by
    rw [Text.lines_append ha, entries_append hea, ← entries_later]
  obtain ⟨line, below, hl⟩ := List.exists_cons_of_ne_nil (mt Text.lines_eq_nil_iff.mp hb)
  have hnot : line.leadingBlanks = [] := by
    obtain ⟨c, t, rfl⟩ := List.exists_cons_of_ne_nil hb
    rw [Text.leadingBlanks_of_lines hl]
    simp [Text.leadingBlanks, Text.isInlineBlank, hc c rfl]
  rw [compileWithUnit_eq, compile_eq, hboth]
  cases heb : entries options.token 0 b.lines with
  | error e => simp [Except.map, Except.mapError]
  | ok eb =>
    rw [hl] at heb
    obtain ⟨first, rest, rfl, hfirst⟩ := head_of_entries heb
    have hlines :=
      (((ea.foldl Draft.add {}).below_of_not_indented (hfirst.trans hnot)).foldl rest).finish
    have hr := Page.render_of_lines hlines options.compress
    rw [← hi, ← hp] at hr
    refine ⟨fun ob hob => ?_, fun e he => by simp [Except.map] at he⟩
    obtain rfl := Except.ok.inj hob
    change Except.ok (((ea ++ first :: rest).foldl Draft.add {}).finish.page.render _) = _
    rw [List.foldl_append, List.foldl_cons, hr]
    rfl

/-- Behind a source with a unit of two spaces, four spaces are two levels, and what fails on the
second line fails on the fourth. -/
theorem compile_append_two_levels :
    compile {} "p\n  q\nr\n    s".toList =
        .ok "<p>\n  <q>\n  </q>\n</p>\n<r>\n    <s>\n    </s>\n</r>\n".toList ∧
      compile {} "p\n  q\nr\ns x=<% y".toList = .error (.unclosedPlaceholder .percent 4) := by
  have ha : "p\n  q\n".toList = [] ∨ "p\n  q\n".toList.getLast? = some '\n' := by decide
  have hoa : compile {} "p\n  q\n".toList = .ok "<p>\n  <q>\n  </q>\n</p>\n".toList := by
    decide +kernel
  have hu : (initial {} "p\n  q\n".toList).run.map State.unit = .ok "  ".toList := by
    decide +kernel
  have hdeep : compileWithUnit {} "  ".toList "r\n    s".toList =
      .ok "<r>\n    <s>\n    </s>\n</r>\n".toList := by
    decide +kernel
  have hfail : compileWithUnit {} "  ".toList "r\ns x=<% y".toList =
      .error (.unclosedPlaceholder .percent 2) := by decide +kernel
  have hc : ∀ c ∈ "r\n    s".toList.head?, c ≠ ' ' ∧ c ≠ '\t' := by simp
  have hc' : ∀ c ∈ "r\ns x=<% y".toList.head?, c ≠ ' ' ∧ c ≠ '\t' := by simp
  have hgood := (compile_append ha hoa hu (by decide) hc).1 _ hdeep
  have hbad := (compile_append ha hoa hu (by decide) hc').2 _ hfail
  rw [show Text.lines "p\n  q\n".toList = ["p".toList, "  q".toList] by decide] at hbad
  exact ⟨by simpa using hgood, by simpa [CompileError.later] using hbad⟩

end Compile
end IndentMarkup
