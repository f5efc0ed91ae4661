import IndentMarkup.Proofs.Compile.History

/-! Nesting follows indentation. A tag is closed by the first later line that is not below it, so
the open tags are known from the levels of the lines alone. -/
namespace IndentMarkup.Compile
open Html

/-- Open tags, innermost first, whose levels ascend strictly from the outermost on. -/
def Ascending (tags : List OpenTag) : Prop :=
  tags.Pairwise fun a b => b.level < a.level

/-- The tags that some lines leave open, innermost first: those that stand below the level of every
line after the one that opened them. -/
def openAfter : List LineRecord → List OpenTag
  | [] => []
  | r :: later => openAfter later ++ r.opened.filter fun t => later.all fun l => t.level < l.level

theorem openAfter_concat (past : List LineRecord) (r : LineRecord) :
    openAfter (past ++ [r]) = r.opened ++ (openAfter past).filter (·.level < r.level) := by
  induction past with
  | nil => simp [openAfter]
  | cons a past ih =>
    rw [List.cons_append, openAfter, ih, openAfter, List.filter_append, List.filter_filter,
      List.append_assoc]
    congr 2
    apply List.filter_congr
    intro t _
    simp [Bool.and_comm]

section Stack

variable {tags : List OpenTag}

theorem Ascending.filter (h : Ascending tags) (p : OpenTag → Bool) : Ascending (tags.filter p) :=
  List.Pairwise.filter p h

/-- On ascending tags it is enough to look at the innermost one. -/
theorem Ascending.dropWhile_eq_filter (h : Ascending tags) (level : Nat) :
    (tags.dropWhile fun t => level ≤ t.level) = tags.filter (·.level < level) ∧
      (tags.takeWhile fun t => level ≤ t.level) = tags.filter fun t => level ≤ t.level := by
  induction tags with
  | nil => simp
  | cons t tags ih =>
    obtain ⟨ht, hr⟩ := List.pairwise_cons.mp h
    by_cases hl : level ≤ t.level
    · obtain ⟨hd, hk⟩ := ih hr
      simp [hl, hd, hk, Nat.not_lt.mpr hl]
    · have hall : ∀ u ∈ t :: tags, u.level < level := by
        intro u hu
        rcases List.mem_cons.mp hu with rfl | hu
        · omega
        · have := ht u hu
          omega
      have hf : (t :: tags).filter (·.level < level) = t :: tags :=
        List.filter_eq_self.mpr fun u hu => by simpa using hall u hu
      have hn : (t :: tags).filter (fun u => level ≤ u.level) = [] :=
        List.filter_eq_nil_iff.mpr fun u hu => by simpa using hall u hu
      rw [hf, hn]
      simp [hl]

/-- The tags that nested elements leave open stand one level apart. -/
def stacked (level : Nat) (tags : List Text) : List OpenTag :=
  tags.mapIdx fun i tag => ⟨level + i, tag⟩

theorem stacked_cons (level : Nat) (tag : Text) (tags : List Text) :
    stacked level (tag :: tags) = ⟨level, tag⟩ :: stacked (level + 1) tags := by
  have hl : ∀ i, level + 1 + i = level + (i + 1) := by omega
  simp [stacked, List.mapIdx_cons, hl]

theorem le_of_mem_stacked {level : Nat} {names : List Text} {t : OpenTag}
    (h : t ∈ stacked level names) : level ≤ t.level := by
  obtain ⟨i, hi, rfl⟩ := List.mem_mapIdx.mp h
  exact Nat.le_add_right level i

theorem ascending_stacked (level : Nat) (names : List Text) :
    Ascending (stacked level names).reverse := by
  rw [Ascending, List.pairwise_reverse]
  induction names generalizing level with
  | nil => exact .nil
  | cons name names ih =>
    rw [stacked_cons]
    refine .cons (fun t ht => ?_) (ih (level + 1))
    exact le_of_mem_stacked ht

theorem Ascending.stack {level : Nat} (h : Ascending tags) (hl : ∀ t ∈ tags, t.level < level)
    (names : List Text) : Ascending ((stacked level names).reverse ++ tags) := by
  refine List.pairwise_append.mpr ⟨ascending_stacked level names, h, fun a ha b hb => ?_⟩
  exact Nat.lt_of_lt_of_le (hl b hb) (le_of_mem_stacked (List.mem_reverse.mp ha))

theorem nestedTags_eq_stacked (level : Nat) {elements : List Element}
    (h : ∀ e ∈ elements.dropLast, e.body = .children) :
    ∃ names, names <+: elements.map (·.tag) ∧
      Page.nestedTags level elements = stacked level names := by
  induction elements generalizing level with
  | nil => exact ⟨[], by simp, rfl⟩
  | cons e elements ih =>
    cases elements with
    | nil =>
      by_cases hb : e.body = .children
      · exact ⟨[e.tag], by simp, by simp [Page.nestedTags, Page.tagsOf, hb, stacked]⟩
      · exact ⟨[], by simp, by simp [Page.nestedTags, Page.tagsOf, hb, stacked]⟩
    | cons e' elements =>
      have hb : e.body = .children := h e (by simp)
      obtain ⟨names, hn, hs⟩ := ih (level + 1) fun d hd => h d (by simp_all)
      refine ⟨e.tag :: names, ?_, ?_⟩
      · simpa [List.cons_prefix_cons] using hn
      · rw [Page.nestedTags, hs, stacked_cons]
        simp [Page.tagsOf, hb]

end Stack

namespace State

/-- The name of the tag that a part of a chain stands for. -/
def partTag (part : Text) : Text :=
  (partSelector part).tag

/-- A line adds tags for its first parts, each a level below the one before, and closes none once
it has begun to add. -/
theorem step_openTags (s : State) :
    ∃ names, names <+: (chainParts s.firstLine.trim).map partTag ∧
      s.opened = (stacked s.readLevel.level names).reverse ∧
      s.step.2.page.openTags = s.opened ++ s.readLevel.closeTags.page.openTags ∧
      ∃ written, (∀ l ∈ written, l.piece.isClosing = false) ∧
        s.step.2.page.lines.toList = s.readLevel.closeTags.page.lines.toList ++ written := by
  obtain ⟨a, ha, hp, -, -⟩ := s.step_page
  change _ = a.write s.readLevel.unit s.readLevel.level s.readLevel.closeTags.page at hp
  have hopened : ∀ tags, s.step.2.page.openTags = tags ++ s.readLevel.closeTags.page.openTags →
      s.opened = tags := by
    intro tags h
    simp [opened, h]
  cases ha with
  | @verbatim text _ =>
    have ho : s.step.2.page.openTags = [] ++ s.readLevel.closeTags.page.openTags := by
      rw [hp]
      simp [Addition.write]
    refine ⟨[], by simp, by simpa [stacked] using hopened [] ho, ?_,
      [⟨s.readLevel.unit, s.readLevel.level, .verbatim text⟩], by simp [Piece.isClosing], ?_⟩
    · rw [hopened [] ho, ho]
    · rw [hp]
      simp [Addition.write]
  | @nested elements hc =>
    obtain ⟨names, hn, hs⟩ := nestedTags_eq_stacked s.readLevel.level hc.outer
    have ho : s.step.2.page.openTags =
        (stacked s.readLevel.level names).reverse ++ s.readLevel.closeTags.page.openTags := by
      rw [hp, ← hs]
      simp [Addition.write]
    have hparts : elements.map (·.tag) <+: (chainParts s.firstLine.trim).map partTag := by
      have := hc.selectors.map Selector.tag
      rw [List.map_map, List.map_map] at this
      exact this
    refine ⟨names, hn.trans hparts, hopened _ ho, ?_,
      elements.mapIdx fun i e => ⟨s.readLevel.unit, s.readLevel.level + i, .element e⟩, ?_, ?_⟩
    · rw [hopened _ ho, ho]
    · intro l hl
      obtain ⟨i, hi, rfl⟩ := List.mem_mapIdx.mp hl
      rfl
    · rw [hp]
      simp [Addition.write]

theorem closeTags_openTags {s : State} (h : Ascending s.page.openTags) :
    s.readLevel.closeTags.page.openTags =
        s.page.openTags.filter (·.level < s.readLevel.level) ∧
      s.readLevel.closeTags.page.lines.toList = s.page.lines.toList ++
        (s.page.openTags.filter fun t => s.readLevel.level ≤ t.level).map
          (·.close s.readLevel.unit) := by
  obtain ⟨hd, ht⟩ := h.dropWhile_eq_filter s.readLevel.level
  have hp : s.readLevel.closeTags.page = s.page.closeWhile s.readLevel.unit
      fun t => s.readLevel.level ≤ t.level := rfl
  rw [hp]
  simp [hd, ht]

theorem ascending_step {s : State} (h : Ascending s.page.openTags) :
    Ascending s.readLevel.closeTags.page.openTags ∧ Ascending s.step.2.page.openTags := by
  obtain ⟨hc, -⟩ := closeTags_openTags h
  obtain ⟨names, -, hn, ho, -⟩ := s.step_openTags
  have hf : Ascending s.readLevel.closeTags.page.openTags := hc ▸ h.filter _
  refine ⟨hf, ?_⟩
  rw [ho, hn]
  apply hf.stack
  intro t ht
  rw [hc] at ht
  simpa using (List.mem_filter.mp ht).2

/-- Between two lines, the open tags are those that the lines so far leave open. -/
theorem Reaches.openTags_eq {s t : State} {past : List LineRecord} (hs : s.page.openTags = [])
    (h : s.Reaches past t) :
    Ascending t.page.openTags ∧ t.page.openTags = openAfter past := by
  induction h with
  | start => simp [hs, Ascending, openAfter]
  | @line past t next _ _ hstep ih =>
    obtain ⟨ha, ho⟩ := ih
    have hn : next = t.step.2 := by rw [hstep]
    obtain ⟨-, -, -, hopen, -⟩ := t.step_openTags
    refine ⟨hn ▸ (ascending_step ha).2, ?_⟩
    rw [hn, hopen, (closeTags_openTags ha).1, ho, openAfter_concat]
    rfl

/-- The state behind some parts of a chain that are not its last. -/
def writeOuter : List Text → State → Except CompileError State
  | [], s => .ok s
  | part :: parts, s =>
    match parseHead s.lineNumber part with
    | .error e => .error e
    | .ok (element, _) => writeOuter parts (s.writeElement element).descend

/-- Chains are written part by part, so the states behind the first parts are states of the run. -/
theorem writeChain_append {front back : List Text} {s u : State} (hb : back ≠ [])
    (h : s.writeOuter front = .ok u) : s.writeChain (front ++ back) = u.writeChain back := by
  induction front generalizing s with
  | nil =>
    obtain rfl : s = u := by simpa [writeOuter] using h
    rfl
  | cons part front ih =>
    obtain ⟨next, more, hn⟩ : ∃ next more, front ++ back = next :: more :=
      List.exists_cons_of_ne_nil (by simp [hb])
    rw [writeOuter] at h
    rw [List.cons_append, hn, writeChain, ← hn]
    · cases hp : parseHead s.lineNumber part with
      | error e => simp [hp] at h
      | ok r => exact ih (by simpa [hp] using h)
    · simp

theorem writeOuter_openTags {front : List Text} {s u : State} (h : s.writeOuter front = .ok u) :
    u.level = s.level + front.length ∧
      u.page.openTags = (stacked s.level (front.map partTag)).reverse ++ s.page.openTags := by
  induction front generalizing s with
  | nil =>
    obtain rfl : s = u := by simpa [writeOuter] using h
    simp [stacked]
  | cons part front ih =>
    rw [writeOuter] at h
    split at h
    · simp at h
    · next element rest hp =>
      obtain ⟨hs, hb, -⟩ := parseHead_eq hp
      obtain ⟨hl, ho⟩ := ih h
      have htag : element.tag = partTag part := by rw [Element.tag, hs, partTag]
      refine ⟨?_, ?_⟩
      · rw [hl]
        simp [descend, writeElement]
        omega
      · rw [ho, List.map_cons, stacked_cons, ← htag]
        simp [descend, writeElement, Page.tagsOf, hb]

/-- How the next line treats the tags that the lines before it left open. -/
structure Nests (s : State) (left : List OpenTag) : Prop where
  /-- First it closes those that do not stand below its level, innermost first. -/
  closes : s.readLevel.closeTags.page.lines.toList = s.page.lines.toList ++
    (left.filter fun t => s.readLevel.level ≤ t.level).map (·.close s.readLevel.unit)
  /-- The others stay open. -/
  keeps : s.readLevel.closeTags.page.openTags = left.filter (·.level < s.readLevel.level)
  /-- Then it opens tags for its first parts, at its own level and one deeper for each, on top of
  those that stay open. -/
  opens : ∃ names, names <+: (chainParts s.firstLine.trim).map partTag ∧
    s.opened = (stacked s.readLevel.level names).reverse ∧
    s.step.2.page.openTags = s.opened ++ s.readLevel.closeTags.page.openTags
  /-- It closes nothing more, whether it succeeds or not. -/
  only_adds : ∃ written, (∀ l ∈ written, l.piece.isClosing = false) ∧
    s.step.2.page.lines.toList = s.readLevel.closeTags.page.lines.toList ++ written
  /-- Behind the closed tags and at its end, the levels ascend. -/
  ascending : Ascending s.readLevel.closeTags.page.openTags ∧ Ascending s.step.2.page.openTags
  /-- They also ascend behind each part of a chain, where the writing goes on from. -/
  ascending_part : ∀ line next front back u,
    s.readLevel.closeTags.nextLine? = some (line, next) → chainParts line.trim = front ++ back →
    back ≠ [] → next.writeOuter front = .ok u →
    next.writeChain (chainParts line.trim) = u.writeChain back ∧
      u.level = s.readLevel.level + front.length ∧ Ascending u.page.openTags

theorem nests_of_ascending {s : State} (h : Ascending s.page.openTags) :
    s.Nests s.page.openTags := by
  obtain ⟨hopen, hlines⟩ := closeTags_openTags h
  obtain ⟨hclosed, hstep⟩ := ascending_step h
  obtain ⟨names, hn, hs, htags, written⟩ := s.step_openTags
  refine ⟨hlines, hopen, ⟨names, hn, hs, htags⟩, written, ⟨hclosed, hstep⟩, ?_⟩
  intro line next front back u hnext hparts hb hu
  have hr := (nextLine?_eq hnext).2
  have hlevel : next.level = s.readLevel.level := hr.level
  obtain ⟨hl, hou⟩ := writeOuter_openTags hu
  rw [hlevel] at hl
  refine ⟨hparts ▸ writeChain_append hb hu, hl, ?_⟩
  rw [hou, hlevel, hr.page]
  refine hclosed.stack (fun t ht => ?_) _
  rw [hopen] at ht
  simpa using (List.mem_filter.mp ht).2

end State

/-- Nesting follows indentation. In front of any line of a run, the open tags are those that stand
below the level of every line since they were opened. The line closes exactly those of them that
it is not nested in, and none of them is closed at another time; at the end of the source all that
are left are closed. -/
theorem nesting_follows_levels {options : Options} {source : Text} {past : List LineRecord}
    {s : State} (h : (initial options source).Reaches past s) :
    Ascending s.page.openTags ∧ s.page.openTags = openAfter past ∧
    (s.atEnd = false → s.Nests (openAfter past)) ∧
    (s.atEnd = true → (initial options source).run = .ok s.closeAll ∧
      s.closeAll.page.openTags = [] ∧
      s.closeAll.page.lines.toList =
        s.page.lines.toList ++ (openAfter past).map (·.close s.unit)) := by
  obtain ⟨ha, ho⟩ := h.openTags_eq rfl
  refine ⟨ha, ho, fun _ => ho ▸ State.nests_of_ascending ha, fun he => ⟨?_, ?_, ?_⟩⟩
  · rw [h.run_eq, State.run_of_atEnd he]
  · simp [State.closeAll, Page.closeAll]
  · have ht : (openAfter past).takeWhile (fun _ => true) = openAfter past :=
      List.takeWhile_eq_self_iff.mpr (by simp)
    simp [State.closeAll, Page.closeAll, ho, ht]

/-- A chain opens two tags, and a line at the level of the inner one closes only that. -/
theorem nesting_follows_levels_chain :
    let start := initial {} "ul \\-\\ li\n p\nb".toList
    let s := start.step.2
    start.Reaches [start.record] s ∧ s.Nests (openAfter [start.record]) ∧
      openAfter [start.record] = [⟨1, "li".toList⟩, ⟨0, "ul".toList⟩] ∧
      s.readLevel.closeTags.page.openTags = [⟨0, "ul".toList⟩] := by
  intro start s
  have hs : start.step = (.ok (), s) := Prod.ext (by with_unfolding_all rfl) rfl
  have hr : start.Reaches ([] ++ [start.record]) s := .line .start rfl hs
  have ho : openAfter [start.record] = [⟨1, "li".toList⟩, ⟨0, "ul".toList⟩] := by
    decide +kernel
  have hn := (nesting_follows_levels hr).2.2.1 (by decide +kernel)
  refine ⟨hr, hn, ho, ?_⟩
  decide +kernel

end IndentMarkup.Compile
