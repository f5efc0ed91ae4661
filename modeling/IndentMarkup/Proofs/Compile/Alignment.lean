import IndentMarkup.Proofs.Compile.Layout
import IndentMarkup.Proofs.Html.Pairing

/-! Opening and closing tags line up, unless the opening tag was written before the unit was known.
-/
namespace IndentMarkup.Compile
open Html

/-- So many copies of a unit. -/
def indentation (unit : Text) (level : Nat) : Text :=
  (List.replicate level unit).flatten

/-- The blanks in front of a line of indented output. -/
def indentOf (l : Line) : Text :=
  indentation l.unit l.level

@[simp] theorem indentation_zero (unit : Text) : indentation unit 0 = [] := rfl

@[simp] theorem indentation_nil (level : Nat) : indentation [] level = [] := by
  simp [indentation]

namespace State

/-- The line of source that is read in `u` writes line `n` of the page, as the `i`-th of its own. -/
structure WritesAt (u : State) (i n : Nat) : Prop where
  reading : u.atEnd = false
  place : n = u.readLevel.closeTags.page.lines.size + i
  written : n < u.step.2.page.lines.size

theorem readLevel_level_of_unit {s : State} (h : s.readLevel.unit = []) :
    s.readLevel.level = 0 := by
  by_cases hu : s.unit = []
  · rw [unit, readLevel_indentation, if_pos hu] at h
    exact s.indentation.level_of_not_indented h
  · exact absurd h (readLevel_unit hu ▸ hu)

theorem standing_step {s : State} (h : Standing s.page.openTags s.page.lines.toList) :
    Standing s.step.2.page.openTags s.step.2.page.lines.toList := by
  obtain ⟨a, -, hp, -, -⟩ := s.step_page
  rw [hp]
  exact Page.standing_write (Page.standing_closeWhile h _ _) _ _ a

theorem Reaches.standing {options : Options} {source : Text} {past : List LineRecord} {t : State}
    (h : (initial options source).Reaches past t) :
    Standing t.page.openTags t.page.lines.toList := by
  induction h with
  | start => exact .done .nil
  | @line past t next _ _ hs ih =>
    have hn : next = t.step.2 := by rw [hs]
    exact hn ▸ standing_step ih

theorem whole_of_run {options : Options} {source : Text} {s : State}
    (h : (initial options source).run = .ok s) : Whole s.page.lines.toList := by
  obtain ⟨past, t, hr, -, rfl⟩ := exists_of_run h
  have hs := Page.standing_closeWhile hr.standing t.unit fun _ => true
  have ho : (t.page.closeWhile t.unit fun _ => true).openTags = [] := by simp
  rw [ho] at hs
  cases hs with
  | done hw => exact hw

/-- What stands on the page behind a line of source: what was there, the tags it closed, and its
own. -/
theorem step_written (s : State) :
    ∃ closed : List OpenTag, ∃ a : Addition,
      s.readLevel.closeTags.page.lines.toList =
        s.page.lines.toList ++ closed.map (·.close s.readLevel.unit) ∧
      s.step.2.page.lines.toList = s.readLevel.closeTags.page.lines.toList ++
        a.lines s.readLevel.unit s.readLevel.level := by
  obtain ⟨a, -, hp, -, -⟩ := s.step_page
  refine ⟨_, a, Page.lines_closeWhile .., ?_⟩
  rw [hp, Addition.lines_write]
  rfl

theorem size_closeTags_le (s : State) :
    s.page.lines.size ≤ s.readLevel.closeTags.page.lines.size := by
  obtain ⟨closed, a, hc, -⟩ := s.step_written
  have h := congrArg List.length hc
  simp only [Array.length_toList, List.length_append] at h
  omega

theorem notMem_closings {l : Line} {tag : OpenTag} (ho : Opens l tag) (closed : List OpenTag)
    (unit : Text) : l ∉ closed.map (·.close unit) := by
  intro hm
  obtain ⟨t, -, rfl⟩ := List.mem_map.mp hm
  exact ho.ne_close unit rfl

/-- An opening tag that an addition writes stands at the level of its place there. -/
theorem exists_of_addition {a : Addition} {unit : Text} {level : Nat} {before after : List Line}
    {opening : Line} {tag : OpenTag} (hl : a.lines unit level = before ++ opening :: after)
    (ho : Opens opening tag) : opening.level = level + before.length ∧ opening.unit = unit := by
  have hget : (a.lines unit level)[before.length]? = some opening := by
    rw [hl]
    simp
  cases a with
  | verbatim text =>
    have hm := List.mem_of_getElem? hget
    have hv : opening = ⟨unit, level, .verbatim text⟩ := by simpa [Addition.lines] using hm
    exact absurd (.inr ⟨text, by rw [hv]⟩) ho.not_isLeaf
  | nested elements =>
    simp only [Addition.lines, List.getElem?_mapIdx, Option.map_eq_some_iff] at hget
    obtain ⟨e, -, rfl⟩ := hget
    exact ⟨rfl, rfl⟩

/-- Every opening tag was written by some line of the run, as one of its elements. -/
theorem Reaches.exists_writer {s t : State} {past : List LineRecord} (hs : s.page.lines = #[])
    (h : s.Reaches past t) {before after : List Line} {opening : Line} {tag : OpenTag}
    (hl : t.page.lines.toList = before ++ opening :: after) (ho : Opens opening tag) :
    ∃ past u i, s.Reaches past u ∧ u.WritesAt i before.length ∧
      opening.level = u.readLevel.level + i ∧ opening.unit = u.readLevel.unit := by
  induction h generalizing after with
  | start => simp [hs] at hl
  | @line past t next hr he hstep ih =>
    obtain ⟨closed, a, hc, hw⟩ := t.step_written
    have hn : next = t.step.2 := by rw [hstep]
    rw [hn] at hl
    rcases split_of_append_eq (hw.symm.trans hl) with ⟨inner, hin, -⟩ | ⟨outer, rfl, hout⟩
    · rcases split_of_append_eq (hc.symm.trans hin) with ⟨inner, hin, -⟩ | ⟨outer, -, hout⟩
      · exact ih hin
      · exact absurd (by simp [hout]) (notMem_closings ho closed t.readLevel.unit)
    · obtain ⟨hlevel, hunit⟩ := exists_of_addition hout ho
      refine ⟨past, t, outer.length, hr, ⟨he, by simp, ?_⟩, hlevel, hunit⟩
      have := congrArg List.length hl
      simp only [Array.length_toList, List.length_append, List.length_cons] at this ⊢
      omega

theorem exists_writer_of_run {options : Options} {source : Text} {s : State}
    (h : (initial options source).run = .ok s) {before after : List Line} {opening : Line}
    {tag : OpenTag} (hl : s.page.lines.toList = before ++ opening :: after)
    (ho : Opens opening tag) :
    ∃ past u i, (initial options source).Reaches past u ∧ u.WritesAt i before.length ∧
      opening.level = u.readLevel.level + i ∧ opening.unit = u.readLevel.unit := by
  obtain ⟨past, t, hr, -, rfl⟩ := exists_of_run h
  have hc : t.closeAll.page.lines.toList = t.page.lines.toList ++
      (t.page.openTags.takeWhile fun _ => true).map (·.close t.unit) := Page.lines_closeWhile ..
  rcases split_of_append_eq (hc.symm.trans hl) with ⟨inner, hin, -⟩ | ⟨outer, -, hout⟩
  · exact hr.exists_writer rfl hin ho
  · refine absurd ?_ (notMem_closings ho (t.page.openTags.takeWhile fun _ => true) t.unit)
    rw [hout]
    simp

/-- Behind a line that knows the unit, everything is written with it. -/
theorem unit_of_mem {options : Options} {source : Text} {s u : State} {past : List LineRecord}
    (hr : (initial options source).run = .ok s) (hu : (initial options source).Reaches past u)
    (hne : u.readLevel.unit ≠ []) {before rest : List Line}
    (hl : s.page.lines.toList = before ++ rest) (hb : u.page.lines.size ≤ before.length) :
    ∀ l ∈ rest, l.unit = s.unit := by
  obtain ⟨⟨early, late, hlaid, hearly, hlate⟩, -⟩ := laidOut_of_run hr
  obtain ⟨more, hmore, hunit⟩ := lines_of_run (hu.run_eq ▸ hr) hu.laidOut.1 hne
  intro l hm
  have hlm : l ∈ more := by
    rw [hl] at hmore
    rcases List.append_eq_append_iff.mp hmore with ⟨gap, hgap, rfl⟩ | ⟨gap, rfl, rfl⟩
    · have := congrArg List.length hgap
      simp only [Array.length_toList, List.length_append] at this
      have hg : gap = [] := List.length_eq_zero_iff.mp (by omega)
      simpa [hg] using hm
    · exact List.mem_append_right gap hm
  have hls : l ∈ s.page.lines.toList := by
    rw [hl]
    exact List.mem_append_right before hm
  rw [hlaid] at hls
  rcases List.mem_append.mp hls with hls | hls
  · exact absurd (hearly l hls) (hunit l hlm)
  · exact hlate l hls

end State

/-- Two lines that are both indented by a level of a unit. -/
def Aligned (unit : Text) (level : Nat) (opening closing : Line) : Prop :=
  indentOf opening = indentation unit level ∧ indentOf closing = indentation unit level

/-- Opening and closing tags line up. Every opening tag of an indented page has a closing tag at its
level, which is that of its line of source and its place in the chain there. Both are indented by
copies of the final unit, except for later elements of a chain that was written when no unit was
known: these open without indentation, and close without it or with the final unit. -/
theorem tags_line_up {token : Char} {source out : Text}
    (h : compile ⟨false, token⟩ source = .ok out) :
    ∃ s, (initial ⟨false, token⟩ source).run = .ok s ∧
      out = s.page.lines.toList.flatMap (fun l => indentOf l ++ l.piece.render ++ "\n".toList) ∧
      (∀ l ∈ s.page.lines.toList, '\n' ∉ l.piece.render) ∧
      ∀ before opening after tag, s.page.lines.toList = before ++ opening :: after →
        Opens opening tag →
        ∃ closing past u i, closingOf? 0 after = some closing ∧
          closing.piece = .closing tag.tag ∧ closing.level = tag.level ∧
          (initial ⟨false, token⟩ source).Reaches past u ∧ u.WritesAt i before.length ∧
          tag.level = u.readLevel.level + i ∧
          (u.readLevel.unit ≠ [] ∨ i = 0 → Aligned s.unit tag.level opening closing) ∧
          (u.readLevel.unit = [] → indentOf opening = [] ∧
            (indentOf closing = [] ∨ indentOf closing = indentation s.unit tag.level)) := by
  obtain ⟨s, hr, rfl⟩ := exists_of_compile h
  obtain ⟨hlaid, hn⟩ := State.laidOut_of_run hr
  refine ⟨s, hr, rfl, hn, fun before opening after tag hl ho => ?_⟩
  obtain ⟨unit, hc⟩ := (State.whole_of_run hr).exists_closing hl ho
  obtain ⟨past, u, i, hu, hw, hlevel, hunit⟩ := State.exists_writer_of_run hr hl ho
  have htag : opening.level = tag.level := ho.1
  have hclosing : indentOf (tag.close unit) = indentation unit tag.level := rfl
  have hopening : indentOf opening = indentation opening.unit tag.level := by
    rw [← htag]
    rfl
  refine ⟨tag.close unit, past, u, i, hc, rfl, rfl, hu, hw, htag ▸ hlevel, ?_, ?_⟩
  · intro hknown
    by_cases hne : u.readLevel.unit = []
    · -- before the unit is known, lines stand at level zero, and so do their first elements
      have hz : tag.level = 0 := by
        have := State.readLevel_level_of_unit hne
        have := hknown.resolve_left (not_not_intro hne)
        omega
      unfold Aligned
      simp [hclosing, hopening, hz]
    · have hb : u.page.lines.size ≤ before.length := by
        have := u.size_closeTags_le
        have := hw.place
        omega
      have hall := State.unit_of_mem hr hu hne hl hb
      have ho' : opening.unit = s.unit := hall opening (by simp)
      have hc' : unit = s.unit := hall (tag.close unit) (by simp [mem_of_closingOf? hc])
      unfold Aligned
      rw [hopening, hclosing, ho', hc']
      exact ⟨rfl, rfl⟩
  · intro hne
    constructor
    · rw [hopening, hunit, hne, indentation_nil]
    · obtain ⟨early, late, hlaid, hearly, hlate⟩ := hlaid
      have hm : tag.close unit ∈ early ++ late := by
        rw [← hlaid, hl]
        simp [mem_of_closingOf? hc]
      rcases List.mem_append.mp hm with hm | hm
      · left
        rw [hclosing, show unit = [] from hearly _ hm, indentation_nil]
      · right
        rw [hclosing, show unit = s.unit from hlate _ hm]

/-- Both elements of an indented chain are aligned; this is the inner one. -/
theorem tags_line_up_indented_chain :
    let source := "ul\n  li \\-\\ a".toList
    compile {} source = .ok "<ul>\n  <li>\n    <a>\n    </a>\n  </li>\n</ul>\n".toList ∧
      ∃ s before opening after closing, (initial {} source).run = .ok s ∧
        s.page.lines.toList = before ++ opening :: after ∧ Opens opening ⟨2, "a".toList⟩ ∧
        closingOf? 0 after = some closing ∧ Aligned "  ".toList 2 opening closing := by
  intro source
  have hc : compile {} source =
      .ok "<ul>\n  <li>\n    <a>\n    </a>\n  </li>\n</ul>\n".toList := by
    decide +kernel
  obtain ⟨s, hr, -, -, hpairs⟩ := tags_line_up hc
  let element (tag : Text) : Piece := .element { selector := { tag } }
  let ul := "ul".toList
  let li := "li".toList
  let a := "a".toList
  let unit := "  ".toList
  have hpage : (initial {} source).run.toOption.map (fun s => (s.unit, s.page.lines.toList)) =
      some (unit, [⟨[], 0, element ul⟩, ⟨unit, 1, element li⟩, ⟨unit, 2, element a⟩,
        ⟨unit, 2, .closing a⟩, ⟨unit, 1, .closing li⟩, ⟨unit, 0, .closing ul⟩]) := by
    decide +kernel
  obtain ⟨hunit, hlines⟩ : s.unit = unit ∧ s.page.lines.toList = _ := by
    simpa [show (initial {} source).run = .ok s from hr, Except.toOption] using hpage
  have ho : Opens ⟨unit, 2, element a⟩ ⟨2, a⟩ := ⟨rfl, _, rfl, rfl, rfl⟩
  obtain ⟨closing, -, u, i, hclosing, -, -, -, -, -, hknown, hunknown⟩ :=
    hpairs [⟨[], 0, element ul⟩, ⟨unit, 1, element li⟩] _ _ _ hlines ho
  refine ⟨hc, s, [_, _], _, _, closing, hr, hlines, ho, hclosing, ?_⟩
  have hne : u.readLevel.unit ≠ [] := fun hnil => absurd (hunknown hnil).1 (by decide)
  have haligned := hknown (.inl hne)
  rwa [hunit] at haligned

/-- The inner element of a chain that comes before the first indented line is not aligned. -/
theorem tags_of_early_chain_not_aligned :
    let source := "a \\-\\ b\n  c".toList
    compile {} source = .ok "<a>\n<b>\n  </b>\n  <c>\n  </c>\n</a>\n".toList ∧
      ∃ s, (initial {} source).run = .ok s ∧
        ¬∀ before opening after tag closing, s.page.lines.toList = before ++ opening :: after →
          Opens opening tag → closingOf? 0 after = some closing →
          Aligned s.unit tag.level opening closing := by
  intro source
  let element (tag : Text) : Piece := .element { selector := { tag } }
  let a := "a".toList
  let b := "b".toList
  let c := "c".toList
  let unit := "  ".toList
  have hpage : (initial {} source).run.toOption.map (fun s => (s.unit, s.page.lines.toList)) =
      some (unit, [⟨[], 0, element a⟩, ⟨[], 1, element b⟩, ⟨unit, 1, .closing b⟩,
        ⟨unit, 1, element c⟩, ⟨unit, 1, .closing c⟩, ⟨unit, 0, .closing a⟩]) := by
    decide +kernel
  refine ⟨by decide +kernel, ?_⟩
  cases hr : (initial {} source).run with
  | error e => simp [hr, Except.toOption] at hpage
  | ok s =>
    obtain ⟨hunit, hlines⟩ : s.unit = unit ∧ s.page.lines.toList = _ := by
      simpa [hr, Except.toOption] using hpage
    refine ⟨s, rfl, fun hall => ?_⟩
    have hb := hall [⟨[], 0, element a⟩] ⟨[], 1, element b⟩ _ ⟨1, b⟩ ⟨unit, 1, .closing b⟩ hlines
      ⟨rfl, _, rfl, rfl, rfl⟩ rfl
    rw [hunit] at hb
    exact absurd hb.1 (by decide)

end IndentMarkup.Compile
