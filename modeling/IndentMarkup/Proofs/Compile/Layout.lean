import IndentMarkup.Proofs.Compile.History
import IndentMarkup.Proofs.Markup.Indentation

/-! The two layouts of a page. Both show the same pieces, none of which spans lines, and the unit
that indents them is fixed once. -/
namespace IndentMarkup.Compile
open Html

/-- A piece with a line of its own. -/
def indented (unit : Text) (piece : Nat × Text) : Text :=
  (List.replicate piece.1 unit).flatten ++ piece.2 ++ "\n".toList

/-- Lines of which the first were written without a unit, and all others with the same. -/
def LaidOut (unit : Text) (lines : List Line) : Prop :=
  ∃ early late, lines = early ++ late ∧ (∀ l ∈ early, l.unit = []) ∧ ∀ l ∈ late, l.unit = unit

theorem LaidOut.append {unit unit' : Text} {lines new : List Line} (h : LaidOut unit lines)
    (hu : unit ≠ [] → unit' = unit) (hn : ∀ l ∈ new, l.unit = unit') :
    LaidOut unit' (lines ++ new) := by
  obtain ⟨early, late, rfl, he, hl⟩ := h
  by_cases hne : unit = []
  · refine ⟨early ++ late, new, rfl, fun l hm => ?_, hn⟩
    rcases List.mem_append.mp hm with hm | hm
    · exact he l hm
    · exact (hl l hm).trans hne
  · refine ⟨early, late ++ new, by simp, he, fun l hm => ?_⟩
    rcases List.mem_append.mp hm with hm | hm
    · rw [hl l hm, hu hne]
    · exact hn l hm

theorem no_newline_tag {e : Element} (h : '\n' ∉ (Piece.element e).render) : '\n' ∉ e.tag := by
  intro hm
  apply h
  rw [render_element, opening]
  simp only [List.mem_append]
  exact .inl (.inl (.inl (.inl (.inr hm))))

namespace State

theorem readLevel_indentation (s : State) :
    s.readLevel.indentation =
      if s.unit = [] then ⟨s.remaining.leadingBlanks⟩ else s.indentation :=
  s.indentation.levelOf_snd s.remaining

/-- A unit that is set stays. -/
theorem readLevel_unit {s : State} (h : s.unit ≠ []) : s.readLevel.unit = s.unit := by
  rw [unit, readLevel_indentation, if_neg h, unit]

theorem readLevel_unit_of_atEnd {s : State} (h : s.atEnd = true) : s.readLevel.unit = s.unit := by
  have he : s.remaining = [] := by simpa [atEnd] using h
  by_cases hu : s.unit = []
  · rw [unit, readLevel_indentation, if_pos hu, he, hu]
    rfl
  · exact readLevel_unit hu

/-- Tags that fit on one line. -/
def FlatTags (s : State) : Prop :=
  ∀ t ∈ s.page.openTags, '\n' ∉ t.tag

theorem mem_nestedTags {level : Nat} {elements : List Element} {t : OpenTag}
    (h : t ∈ Page.nestedTags level elements) : ∃ e ∈ elements, t.tag = e.tag := by
  induction elements generalizing level with
  | nil => simp [Page.nestedTags] at h
  | cons e elements ih =>
    rcases List.mem_append.mp h with h | h
    · unfold Page.tagsOf at h
      split at h
      · obtain rfl := List.mem_singleton.mp h
        exact ⟨e, by simp, rfl⟩
      · simp at h
    · obtain ⟨d, hd, ht⟩ := ih h
      exact ⟨d, by simp [hd], ht⟩

theorem write_lines {line : Text} {a : Addition} (h : Adds line a) (unit : Text) (level : Nat)
    (p : Page) :
    (∃ new, (a.write unit level p).lines.toList = p.lines.toList ++ new ∧
      ∀ l ∈ new, l.unit = unit ∧ '\n' ∉ l.piece.render) ∧
    ∀ t ∈ (a.write unit level p).openTags, t ∈ p.openTags ∨ '\n' ∉ t.tag := by
  cases h with
  | @verbatim text ht =>
    refine ⟨⟨[⟨unit, level, .verbatim text⟩], by simp [Addition.write], ?_⟩, ?_⟩
    · simpa [Piece.render] using ht
    · intro t hm
      exact .inl (by simpa [Addition.write] using hm)
  | @nested elements hc =>
    refine ⟨⟨elements.mapIdx fun i e => ⟨unit, level + i, .element e⟩, by simp [Addition.write],
      ?_⟩, ?_⟩
    · intro l hl
      obtain ⟨i, hi, rfl⟩ := List.mem_mapIdx.mp hl
      exact ⟨rfl, hc.no_newline _ (List.getElem_mem hi)⟩
    · intro t hm
      have hm' : t ∈ Page.nestedTags level elements ∨ t ∈ p.openTags := by
        simpa [Addition.write] using hm
      rcases hm' with hm' | hm'
      · obtain ⟨e, he, ht⟩ := mem_nestedTags hm'
        exact .inr (ht ▸ no_newline_tag (hc.no_newline e he))
      · exact .inl hm'

theorem close_no_newline {t : OpenTag} (unit : Text) (h : '\n' ∉ t.tag) :
    '\n' ∉ (t.close unit).piece.render := by
  simp [OpenTag.close, render_closing, h]

/-- A line writes with the unit that it knows, and nothing it writes spans lines. -/
theorem step_lines {s : State} (h : s.FlatTags) :
    s.step.2.FlatTags ∧ ∃ new, s.step.2.page.lines.toList = s.page.lines.toList ++ new ∧
      ∀ l ∈ new, l.unit = s.readLevel.unit ∧ '\n' ∉ l.piece.render := by
  obtain ⟨a, ha, hp, -, -⟩ := s.step_page
  obtain ⟨⟨new, hl, hn⟩, ho⟩ := write_lines ha s.readLevel.unit s.readLevel.level
    (s.page.closeFrom s.readLevel.unit s.readLevel.level)
  rw [← hp] at hl ho
  refine ⟨fun t ht => ?_, _, hl.trans (by rw [Page.closeFrom, Page.lines_closeWhile,
    List.append_assoc]), fun l hm => ?_⟩
  · rcases ho t ht with ht | ht
    · exact h t (List.dropWhile_subset _ ht)
    · exact ht
  · rcases List.mem_append.mp hm with hm | hm
    · obtain ⟨t, ht, rfl⟩ := List.mem_map.mp hm
      exact ⟨rfl, close_no_newline _ (h t (List.takeWhile_subset _ ht))⟩
    · exact hn l hm

theorem closeAll_lines {s : State} (h : s.FlatTags) :
    ∃ new, s.closeAll.page.lines.toList = s.page.lines.toList ++ new ∧
      ∀ l ∈ new, l.unit = s.unit ∧ '\n' ∉ l.piece.render := by
  refine ⟨_, Page.lines_closeWhile .., fun l hm => ?_⟩
  obtain ⟨t, ht, rfl⟩ := List.mem_map.mp hm
  exact ⟨rfl, close_no_newline _ (h t (List.takeWhile_subset _ ht))⟩

theorem step_unit (s : State) : s.step.2.unit = s.readLevel.unit := by
  obtain ⟨_, _, _, hi, -⟩ := s.step_page
  exact congrArg Indentation.unit hi

/-- Between two lines of a run, the page is laid out with the unit known there. -/
theorem Reaches.laidOut {options : Options} {source : Text} {past : List LineRecord} {t : State}
    (h : (initial options source).Reaches past t) :
    t.FlatTags ∧ LaidOut t.unit t.page.lines.toList ∧
      ∀ l ∈ t.page.lines.toList, '\n' ∉ l.piece.render := by
  induction h with
  | start =>
    have hl : (initial options source).page.lines.toList = [] := rfl
    refine ⟨fun t ht => absurd ht List.not_mem_nil, ⟨[], [], hl, by simp, by simp⟩, ?_⟩
    simp [hl]
  | @line past t next _ _ hs ih =>
    obtain ⟨hf, hl, hn⟩ := ih
    obtain ⟨hf', new, hl', hn'⟩ := t.step_lines hf
    have hu := t.step_unit
    rw [hs] at hf' hl' hu
    refine ⟨hf', ?_, fun l hm => ?_⟩
    · rw [hl', hu]
      exact hl.append readLevel_unit fun l hm => (hn' l hm).1
    · rw [hl'] at hm
      rcases List.mem_append.mp hm with hm | hm
      · exact hn l hm
      · exact (hn' l hm).2

/-- Once a line has fixed the unit, it and all lines behind it write with that unit. -/
theorem Reaches.lines_of_unit {t e : State} {past : List LineRecord} (h : t.Reaches past e)
    (hf : t.FlatTags) (hu : t.readLevel.unit ≠ []) :
    e.FlatTags ∧ e.readLevel.unit = t.readLevel.unit ∧
      ∃ more, e.page.lines.toList = t.page.lines.toList ++ more ∧
        ∀ l ∈ more, l.unit = t.readLevel.unit := by
  induction h with
  | start => exact ⟨hf, rfl, [], by simp, by simp⟩
  | @line past e next _ _ hs ih =>
    obtain ⟨hfe, hue, more, hl, hm⟩ := ih
    obtain ⟨hfn, new, hln, hn⟩ := e.step_lines hfe
    have hun := e.step_unit
    rw [hs] at hfn hln hun
    rw [hue] at hun
    refine ⟨hfn, (readLevel_unit (hun ▸ hu)).trans hun, more ++ new,
      by rw [hln, hl, List.append_assoc], ?_⟩
    intro l hl'
    rcases List.mem_append.mp hl' with hl' | hl'
    · exact hm l hl'
    · exact (hn l hl').1.trans hue

theorem lines_of_run {t s : State} (h : t.run = .ok s) (hf : t.FlatTags)
    (hu : t.readLevel.unit ≠ []) :
    ∃ more, s.page.lines.toList = t.page.lines.toList ++ more ∧ ∀ l ∈ more, l.unit ≠ [] := by
  obtain ⟨past, e, hr, he, rfl⟩ := exists_of_run h
  obtain ⟨hfe, hue, more, hl, hm⟩ := hr.lines_of_unit hf hu
  obtain ⟨last, hll, hlast⟩ := e.closeAll_lines hfe
  rw [readLevel_unit_of_atEnd he] at hue
  refine ⟨more ++ last, by simp [hll, hl], fun l hml => ?_⟩
  rcases List.mem_append.mp hml with hml | hml
  · exact hm l hml ▸ hu
  · rw [(hlast l hml).1, hue]
    exact hu

/-- The page that a run leaves. -/
theorem laidOut_of_run {options : Options} {source : Text} {s : State}
    (h : (initial options source).run = .ok s) :
    LaidOut s.unit s.page.lines.toList ∧ ∀ l ∈ s.page.lines.toList, '\n' ∉ l.piece.render := by
  obtain ⟨past, t, hr, -, rfl⟩ := exists_of_run h
  obtain ⟨hf, hl, hn⟩ := hr.laidOut
  obtain ⟨new, hlines, hnew⟩ := t.closeAll_lines hf
  rw [hlines]
  refine ⟨hl.append (fun _ => rfl) fun l hm => (hnew l hm).1, fun l hm => ?_⟩
  rcases List.mem_append.mp hm with hm | hm
  · exact hn l hm
  · exact (hnew l hm).2

end State

/-- A line of output as a level and a text. -/
def levelAndText (l : Line) : Nat × Text :=
  (l.level, l.piece.render)

theorem render_of_unit {lines : List Line} {unit : Text} (h : ∀ l ∈ lines, l.unit = unit) :
    lines.flatMap (Line.render false) = (lines.map levelAndText).flatMap (indented unit) := by
  rw [List.flatMap_map]
  refine List.flatMap_congr fun l hl => ?_
  simp [Line.render_eq, row, indented, levelAndText, h l hl]

/-- Lines without a unit are all there before the line that fixes it. -/
theorem length_early_le {options : Options} {source : Text} {s t : State}
    {past : List LineRecord} {early late : List Line}
    (hr : (initial options source).run = .ok s) (hl : s.page.lines.toList = early ++ late)
    (he : ∀ l ∈ early, l.unit = []) (ht : (initial options source).Reaches past t)
    (hu : t.readLevel.unit ≠ []) : early.length ≤ t.page.lines.size := by
  obtain ⟨more, hlines, hm⟩ := State.lines_of_run (ht.run_eq ▸ hr) ht.laidOut.1 hu
  rw [hl] at hlines
  rcases List.append_eq_append_iff.mp hlines with ⟨rest, ho, -⟩ | ⟨rest, ho, rfl⟩
  · have := congrArg List.length ho
    simp only [List.length_append, Array.length_toList] at this
    omega
  · -- an early line beyond those of `t` would be written with a unit
    cases rest with
    | nil => simp [ho]
    | cons l rest => exact absurd (he l (by simp [ho])) (hm l (by simp))

/-- Both layouts of a source fail alike, or show the same pieces: compressed output is their bare
texts, indented output gives each a line of its own. No text has a line break. The pieces that are
not indented come first, and were all written before the unit was known. -/
theorem layouts_agree (token : Char) (source : Text) :
    (∃ e, ∀ compress, compile ⟨compress, token⟩ source = .error e) ∨
    ∃ (s : State) (early late : List (Nat × Text)),
      (∀ compress, (initial ⟨compress, token⟩ source).run = .ok s) ∧
      early ++ late = s.page.lines.toList.map levelAndText ∧
      (∀ p ∈ early ++ late, '\n' ∉ p.2) ∧
      compile ⟨true, token⟩ source = .ok ((early ++ late).flatMap (·.2)) ∧
      '\n' ∉ (early ++ late).flatMap (·.2) ∧
      compile ⟨false, token⟩ source =
        .ok (early.flatMap (indented []) ++ late.flatMap (indented s.unit)) ∧
      ∀ past t, (initial ⟨false, token⟩ source).Reaches past t → t.readLevel.unit ≠ [] →
        early.length ≤ t.page.lines.size := by
  cases hr : (initial ⟨false, token⟩ source).run with
  | error e =>
    left
    exact ⟨e, fun compress => compile_of_error hr⟩
  | ok s =>
    right
    obtain ⟨⟨early, late, hl, he, hu⟩, hn⟩ := State.laidOut_of_run hr
    have hc : early.map levelAndText ++ late.map levelAndText =
        s.page.lines.toList.map levelAndText := by
      rw [hl, List.map_append]
    have hp : ∀ p ∈ early.map levelAndText ++ late.map levelAndText, '\n' ∉ p.2 := by
      rw [hc]
      intro p hm
      obtain ⟨l, hml, rfl⟩ := List.mem_map.mp hm
      exact hn l hml
    refine ⟨s, early.map levelAndText, late.map levelAndText, fun _ => hr, hc, hp, ?_, ?_, ?_, ?_⟩
    · have ht : (initial ⟨true, token⟩ source).run = .ok s := hr
      rw [compile_of_run ht, hc, Page.render, List.flatMap_map]
      rfl
    · intro hm
      obtain ⟨p, hpm, hm⟩ := List.mem_flatMap.mp hm
      exact hp p hpm hm
    · rw [compile_of_run hr, Page.render, hl, List.flatMap_append, render_of_unit he,
        render_of_unit hu]
    · intro past t ht hut
      simpa using length_early_le hr hl he ht hut

/-- Here the second line fixes the unit, when one piece is written. -/
theorem layouts_agree_second_line :
    ∃ early late : List (Nat × Text), early.length ≤ 1 ∧
      compile ⟨true, '\x60'⟩ "p\n  q\nr".toList = .ok ((early ++ late).flatMap (·.2)) ∧
      compile ⟨false, '\x60'⟩ "p\n  q\nr".toList =
        .ok (early.flatMap (indented []) ++ late.flatMap (indented "  ".toList)) := by
  have hunit : ((initial {} "p\n  q\nr".toList).run.toOption.map State.unit) =
      some "  ".toList := by decide +kernel
  rcases layouts_agree '\x60' "p\n  q\nr".toList with
    ⟨e, he⟩ | ⟨s, early, late, hr, -, -, htrue, -, hfalse, hearly⟩
  · have hok : (compile ⟨true, '\x60'⟩ "p\n  q\nr".toList).isOk = true := by decide +kernel
    rw [he true] at hok
    simp [Except.isOk, Except.toBool] at hok
  · rw [show (initial {} "p\n  q\nr".toList).run = .ok s from hr false] at hunit
    have hs : s.unit = "  ".toList := Option.some.inj hunit
    rw [hs] at hfalse
    have ht : (initial ⟨false, '\x60'⟩ "p\n  q\nr".toList).Reaches _ _ :=
      .line .start rfl (by with_unfolding_all rfl)
    exact ⟨early, late, hearly _ _ ht (by decide +kernel), htrue, hfalse⟩

end IndentMarkup.Compile
