import IndentMarkup.Proofs.Compile.Entry
import IndentMarkup.Proofs.Compile.History

/-! A source is compiled as if all of its entries were read first and then laid out on the page. So
what a source says and where it is put can be looked at apart. -/
namespace IndentMarkup.Compile
open Html

/-- A page under way, with the unit that it is indented by. -/
structure Draft where
  indentation : Indentation := {}
  page : Page := {}

namespace Draft

/-- Closes the tags that are due at the level of an entry, and adds what it says. -/
def add (d : Draft) (e : Entry) : Draft :=
  let (level, indentation) := d.indentation.levelOf e.blanks
  { indentation
    page := e.addition.write indentation.unit level (d.page.closeFrom indentation.unit level) }

def finish (d : Draft) : Draft :=
  { d with page := d.page.closeAll d.indentation.unit }

section Add

variable (d : Draft) (e : Entry)

/-- The level at which an entry is added. -/
def levelOf : Nat := (d.indentation.levelOf e.blanks).1

theorem add_openTags : (d.add e).page.openTags =
    e.addition.tags (d.levelOf e) ++ d.page.openTags.dropWhile (d.levelOf e ≤ ·.level) :=
  Addition.openTags_write ..

theorem add_lines : (d.add e).page.lines.toList = d.page.lines.toList ++
    (d.page.openTags.takeWhile (d.levelOf e ≤ ·.level)).map (·.close (d.add e).indentation.unit) ++
      e.addition.lines (d.add e).indentation.unit (d.levelOf e) := by
  change (e.addition.write _ _ (d.page.closeFrom _ _)).lines.toList = _
  rw [Addition.lines_write, Page.closeFrom, Page.lines_closeWhile]
  rfl

theorem finish_lines : d.finish.page.lines.toList =
    d.page.lines.toList ++ d.page.openTags.map (·.close d.indentation.unit) := by
  change (d.page.closeWhile _ _).lines.toList = _
  rw [Page.lines_closeWhile, List.takeWhile_eq_self_iff.mpr (by simp)]

end Add
end Draft

theorem levelOf_leadingBlanks (i : Indentation) (t : Text) :
    i.levelOf t.leadingBlanks = i.levelOf t := by
  have h : t.leadingBlanks.leadingBlanks = t.leadingBlanks := by
    simp [Text.leadingBlanks, List.takeWhile_takeWhile]
  simp only [Indentation.levelOf, h]

namespace State

/-- The lines that are not read yet. -/
def lines (s : State) : List Text := s.remaining.lines

def draft (s : State) : Draft := ⟨s.indentation, s.page⟩

/-- A state further down the source by a number of lines. -/
structure Passes (k : Nat) (s s' : State) : Prop extends Reads s s' where
  lines : s'.lines = s.lines.drop k
  number : s'.lineNumber = s.lineNumber + k

theorem Passes.refl (s : State) : Passes 0 s s :=
  ⟨.refl s, rfl, rfl⟩

theorem Passes.trans {j k : Nat} {s s' s'' : State} (h : Passes j s s') (h' : Passes k s' s'') :
    Passes (j + k) s s'' := by
  refine ⟨h.toReads.trans h'.toReads, ?_, ?_⟩
  · rw [h'.lines, h.lines, List.drop_drop]
  · rw [h'.number, h.number, Nat.add_assoc]

theorem atEnd_iff (s : State) : s.atEnd = true ↔ s.lines = [] := by
  simp [atEnd, lines, Text.lines_eq_nil_iff]

theorem exists_lines_of_not_atEnd {s : State} (h : s.atEnd = false) :
    ∃ line below, s.lines = line :: below :=
  List.exists_cons_of_ne_nil (mt s.atEnd_iff.mpr (by simp [h]))

theorem nextLine?_of_nil {s : State} (h : s.lines = []) : s.nextLine? = none := by
  rw [nextLine?, if_pos (s.atEnd_iff.mpr h)]

/-- The next line is the first that is not read yet. -/
theorem nextLine?_of_cons {s : State} {line : Text} {below : List Text}
    (h : s.lines = line :: below) : ∃ s', s.nextLine? = some (line, s') ∧ Passes 1 s s' := by
  have hne : ¬s.atEnd = true := by simp [atEnd_iff, h]
  have hl : s.lines = s.firstLine :: _ := Text.lines_eq_cons (by simpa [atEnd] using hne)
  obtain ⟨rfl, -⟩ := List.cons.inj (h.symm.trans hl)
  have hn : s.nextLine? = _ := if_neg hne
  exact ⟨_, hn, ⟨rfl, rfl, rfl, rfl⟩, by rw [hl]; rfl, rfl⟩

theorem foldLines_cases (depth : Int) (content : Text) (n : Nat) (s : State) :
    (contentOf depth content n s.lines = .error (.unmatchedOpening n) ∧
        ∃ s', s.foldLines depth content = (none, s')) ∨
      ∃ a k s', contentOf depth content n s.lines = .ok (a, k) ∧
        s.foldLines depth content = (some a, s') ∧ Passes k s s' := by
  fun_induction foldLines depth content s with
  | case1 depth content s hd =>
    refine .inr ⟨content, 0, s, ?_, rfl, .refl s⟩
    cases s.lines <;> simp [contentOf, hd]
  | case2 depth content s hd hn =>
    cases hl : s.lines with
    | nil => exact .inl ⟨by simp [contentOf, hd], s, rfl⟩
    | cons line below =>
      obtain ⟨s', hs, -⟩ := nextLine?_of_cons hl
      simp [hn] at hs
  | case3 depth content s hd line next hn ih =>
    cases hl : s.lines with
    | nil => simp [nextLine?_of_nil hl] at hn
    | cons line' below =>
      obtain ⟨s', hs, hp⟩ := nextLine?_of_cons hl
      obtain ⟨rfl, rfl⟩ : line = line' ∧ next = s' := by simpa [hn] using hs
      have hb : next.lines = below := by rw [hp.lines, hl]; rfl
      rw [hb] at ih
      rcases ih with ⟨hc, hf⟩ | ⟨a, k, s'', hc, hf, hp'⟩
      · exact .inl ⟨by simp [contentOf, hd, hc, Except.map], hf⟩
      · refine .inr ⟨a, k + 1, s'', by simp [contentOf, hd, hc, Except.map], hf, ?_⟩
        rw [Nat.add_comm]
        exact hp.trans hp'

theorem readBody_cases (rest : Text) (s : State) :
    (∃ e, bodyOf rest s.lineNumber s.lines = .error e ∧ (s.readBody rest).1 = .error e) ∨
      ∃ body k s', bodyOf rest s.lineNumber s.lines = .ok (body, k) ∧
        s.readBody rest = (.ok body, s') ∧ Passes k s s' := by
  unfold bodyOf readBody
  split_ifs with hb hd hs
  · exact .inl ⟨_, rfl, by simp [hd]⟩
  · rcases s.foldLines_cases rest.bracketLevel rest s.lineNumber with
      ⟨hc, s', hf⟩ | ⟨a, k, s', hc, hf, hp⟩
    · exact .inl ⟨_, Reading.map_eq_error.mpr hc, by simp [hd, hf]⟩
    · exact .inr ⟨_, k, s', Reading.map_of_ok hc _, by simp [hd, hf], hp⟩
  · exact .inr ⟨_, _, s, rfl, rfl, .refl s⟩
  · exact .inr ⟨_, _, s, rfl, rfl, .refl s⟩

/-- A state with the same token and unit, given its page and how far it has read. -/
structure Leaves (page : Page) (lines : List Text) (number : Nat) (s s' : State) : Prop where
  token : s'.token = s.token
  indentation : s'.indentation = s.indentation
  page : s'.page = page
  lines : s'.lines = lines
  number : s'.lineNumber = number

theorem writeChain_cases (parts : List Text) (s : State) :
    (∃ e, elementsOf parts s.lineNumber s.lines = .error e ∧ (s.writeChain parts).1 = .error e) ∨
      ∃ elements k s', elementsOf parts s.lineNumber s.lines = .ok (elements, k) ∧
        s.writeChain parts = (.ok (), s') ∧
        Leaves (s.page.writeNested s.unit s.level elements) (s.lines.drop k) (s.lineNumber + k)
          s s' := by
  fun_induction writeChain parts s with
  | case1 s => exact .inr ⟨[], 0, s, rfl, rfl, rfl, rfl, rfl, rfl, rfl⟩
  | case2 last s e hp => exact .inl ⟨e, Reading.head_of_error hp _ _, rfl⟩
  | case3 last s element rest hp e after hb =>
    rcases s.readBody_cases rest with ⟨e', he, hf⟩ | ⟨body, k, s', -, hf, -⟩
    · obtain rfl : e = e' := by simpa [hb] using hf
      refine .inl ⟨e, ?_, rfl⟩
      rw [elementsOf, Reading.head_of_ok hp]
      exact Reading.map_eq_error.mpr he
    · simp [hb] at hf
  | case4 last s element rest hp body after hb =>
    rcases s.readBody_cases rest with ⟨e', -, hf⟩ | ⟨body', k, s', hr, hf, h⟩
    · simp [hb] at hf
    · obtain ⟨rfl, rfl⟩ : body = body' ∧ after = s' := by simpa [hb] using hf
      refine .inr ⟨[{ element with body }], k, _, ?_, rfl, h.token, h.indentation, ?_, h.lines,
        h.number⟩
      · rw [elementsOf, Reading.head_of_ok hp]
        exact Reading.map_of_ok hr _
      · simp [writeElement, Page.writeNested, h.page, h.level, unit, h.indentation]
  | case5 part parts s hne e hp =>
    rw [elementsOf_cons hne]
    exact .inl ⟨e, Reading.head_of_error hp _ _, rfl⟩
  | case6 part parts s hne element rest hp ih =>
    rw [elementsOf_cons hne, Reading.head_of_ok hp]
    rcases ih with ⟨e, he, hf⟩ | ⟨elements, k, s', hr, hf, h⟩
    · exact .inl ⟨e, Reading.map_eq_error.mpr he, hf⟩
    · exact .inr ⟨element :: elements, k, s', Reading.map_of_ok hr _, hf, h.token, h.indentation,
        h.page, h.lines, h.number⟩

theorem processLine_cases {line : Text} {below : List Text} {s : State}
    (h : s.lines = line :: below) :
    (∃ e, additionOf s.token line (s.lineNumber + 1) below = .error e ∧
        s.processLine.1 = .error e) ∨
      ∃ addition k s', additionOf s.token line (s.lineNumber + 1) below = .ok (addition, k) ∧
        s.processLine = (.ok (), s') ∧
        Leaves (addition.write s.unit s.level s.page) (below.drop k) (s.lineNumber + 1 + k)
          s s' := by
  obtain ⟨s', hn, hp⟩ := nextLine?_of_cons h
  have hb : s'.lines = below := by rw [hp.lines, h]; rfl
  have hu : s'.unit = s.unit := congrArg Indentation.unit hp.indentation
  unfold additionOf processLine
  simp only [hn]
  cases ht : line.trim with
  | nil => exact .inr ⟨_, _, s', rfl, rfl, hp.token, hp.indentation, hp.page, hb, hp.number⟩
  | cons c text =>
    simp only [hp.token]
    split_ifs
    · refine .inr ⟨_, _, _, rfl, rfl, hp.token, hp.indentation, ?_, hb, hp.number⟩
      simp [writeVerbatim, Addition.write, hp.page, hp.level, hu]
    · have hc := s'.writeChain_cases (chainParts (c :: text))
      rw [hb, hp.number] at hc
      rcases hc with ⟨e, he, hf⟩ | ⟨elements, k, s'', hr, hf, hs⟩
      · exact .inl ⟨e, Reading.map_eq_error.mpr he, hf⟩
      · refine .inr ⟨_, k, s'', Reading.map_of_ok hr _, hf, hs.token.trans hp.token,
          hs.indentation.trans hp.indentation, ?_, hs.lines, hs.number⟩
        simp [hs.page, Addition.write, hp.page, hp.level, hu]

/-- A line of source says what its reading says, and puts it on the page. -/
theorem step_cases {line : Text} {below : List Text} {s : State} (h : s.lines = line :: below) :
    (∃ e, additionOf s.token line (s.lineNumber + 1) below = .error e ∧ s.step.1 = .error e) ∨
      ∃ addition k s', additionOf s.token line (s.lineNumber + 1) below = .ok (addition, k) ∧
        s.step = (.ok (), s') ∧ s'.token = s.token ∧
        s'.draft = s.draft.add ⟨line.leadingBlanks, addition⟩ ∧ s'.lines = below.drop k ∧
        s'.lineNumber = s.lineNumber + 1 + k := by
  rcases s.readLevel.closeTags.processLine_cases h with hf | ⟨addition, k, s', ha, hs, hl⟩
  · exact .inl hf
  · refine .inr ⟨addition, k, s', ha, hs, hl.token, ?_, hl.lines, hl.number⟩
    rw [draft, hl.indentation, hl.page, Draft.add, Text.leadingBlanks_of_lines h,
      levelOf_leadingBlanks]
    rfl

/-- A run reads all entries of the source and lays them out one after the other. -/
theorem run_draft (s : State) :
    s.run.map draft = (entries s.token s.lineNumber s.lines).map fun es =>
      (es.foldl Draft.add s.draft).finish := by
  fun_induction run s with
  | case1 s h =>
    rw [s.atEnd_iff.mp h, entries_nil]
    rfl
  | case2 s h e after hs =>
    obtain ⟨line, below, hl⟩ := exists_lines_of_not_atEnd (by simpa using h)
    rcases step_cases hl with ⟨e', ha, hf⟩ | ⟨addition, k, s', -, hf, -⟩
    · obtain rfl : e = e' := by simpa [hs] using hf
      rw [hl, entries_cons_of_error ha]
      rfl
    · simp [hs] at hf
  | case3 s h next hs ih =>
    obtain ⟨line, below, hl⟩ := exists_lines_of_not_atEnd (by simpa using h)
    rcases step_cases hl with ⟨e', -, hf⟩ | ⟨addition, k, s', ha, hf, ht, hd, hb, hn⟩
    · simp [hs] at hf
    · obtain rfl : next = s' := by simpa [hs] using hf
      rw [ih, hl, entries_cons_of_ok ha, ht, hd, hb, hn]
      cases entries s.token (s.lineNumber + 1 + k) (below.drop k) <;> rfl

theorem exists_entries_of_run {s t : State} (h : s.run = .ok t) :
    ∃ es, entries s.token s.lineNumber s.lines = .ok es ∧
      t.draft = (es.foldl Draft.add s.draft).finish := by
  have hd := s.run_draft
  rw [h] at hd
  cases he : entries s.token s.lineNumber s.lines with
  | error e => simp [he, Except.map] at hd
  | ok es => exact ⟨es, rfl, by simpa [he, Except.map] using hd⟩

theorem run_render (s : State) (compress : Bool) :
    (s.run.map fun t => t.page.render compress) =
      (entries s.token s.lineNumber s.lines).map fun es =>
        (es.foldl Draft.add s.draft).finish.page.render compress := by
  calc
    _ = (s.run.map draft).map fun d => d.page.render compress := by cases s.run <;> rfl
    _ = ((entries s.token s.lineNumber s.lines).map fun es =>
          (es.foldl Draft.add s.draft).finish).map fun d => d.page.render compress := by
      rw [run_draft]
    _ = _ := by cases entries s.token s.lineNumber s.lines <;> rfl

end State

/-- Compiling is reading the entries, laying them out and rendering the page. -/
theorem compile_eq (options : Options) (source : Text) :
    compile options source = (entries options.token 0 source.lines).map fun es =>
      (es.foldl Draft.add {}).finish.page.render options.compress :=
  (initial options source).run_render options.compress

theorem exists_entries_of_compile {options : Options} {source html : Text}
    (h : compile options source = .ok html) :
    ∃ es, entries options.token 0 source.lines = .ok es := by
  rw [compile_eq] at h
  cases he : entries options.token 0 source.lines with
  | error e => simp [he, Except.map] at h
  | ok es => exact ⟨es, rfl⟩

/-- Behind a source that ends with a line feed, further entries go on with its draft. -/
theorem compile_append_eq {options : Options} {front : Text}
    (hf : front = [] ∨ front.getLast? = some '\n') {es : List Entry}
    (he : entries options.token 0 front.lines = .ok es) (back : Text) :
    compile options (front ++ back) =
      (entries options.token front.lines.length back.lines).map fun more =>
        (more.foldl Draft.add (es.foldl Draft.add {})).finish.page.render options.compress := by
  rw [compile_eq, Text.lines_append hf, entries_append he, Nat.zero_add]
  cases entries options.token front.lines.length back.lines with
  | error e => rfl
  | ok more =>
    change Except.ok (((es ++ more).foldl Draft.add {}).finish.page.render _) = _
    rw [List.foldl_append]
    rfl

end IndentMarkup.Compile
