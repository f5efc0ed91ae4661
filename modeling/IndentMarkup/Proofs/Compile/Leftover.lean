import IndentMarkup.Proofs.Compile.Folding

/-! What a line that fails leaves behind: the outer elements of its chain, opened and not closed, and
as many lines read as it took to find the error. -/
namespace IndentMarkup.Compile
open Html

/-- A part of a chain opens an element, whatever stands behind its attributes. -/
def OpensAs (number : Nat) (part : Text) (element : Element) : Prop :=
  ∃ rest, parseHead number part = .ok (element, rest)

/-- The first of the parts that a chain ends with cannot be read: its attributes fail, or it is the
last part of all and its content fails. -/
inductive FirstFails (number : Nat) (below : List Text) : List Text → CompileError → Prop
  | attributes {part : Text} {more : List Text} {e : CompileError} :
      parseHead number part = .error e → FirstFails number below (part :: more) e
  | content {last rest : Text} {element : Element} {e : CompileError} :
      parseHead number last = .ok (element, rest) → bodyOf rest number below = .error e →
      FirstFails number below [last] e

section Elements

variable {number : Nat} {parts : List Text} {elements : List Element}

theorem body_of_opensAs (h : List.Forall₂ (OpensAs number) parts elements) :
    ∀ e ∈ elements, e.body = .children := by
  induction h with
  | nil => simp
  | @cons part e parts elements hp _ ih =>
    obtain ⟨rest, hp⟩ := hp
    have he : e.body = .children := (parseHead_eq hp).2.1
    simpa [he] using ih

/-- Elements with children leave all of their tags open. -/
theorem nestedTags_of_children (h : ∀ e ∈ elements, e.body = .children) (level : Nat) :
    Page.nestedTags level elements = stacked level (elements.map (·.tag)) := by
  induction elements generalizing level with
  | nil => rfl
  | cons e elements ih =>
    have he : e.body = .children := h e List.mem_cons_self
    have hrest := ih (fun d hd => h d (List.mem_cons_of_mem e hd)) (level + 1)
    rw [Page.nestedTags, hrest, List.map_cons, stacked_cons, Page.tagsOf, if_pos he]
    rfl

/-- The opening tags of elements, each a level below the one before. -/
def openingTags (compress : Bool) (unit : Text) : (level : Nat) → List Element → Text
  | _, [] => []
  | level, e :: elements =>
    row compress unit level (opening e.selector e.attributes ++ ">".toList) ++
      openingTags compress unit (level + 1) elements

/-- Of elements with children, the opening tags are written and nothing else. -/
theorem render_writeNested (h : ∀ e ∈ elements, e.body = .children) (compress : Bool)
    (unit : Text) (level : Nat) (p : Page) :
    (p.writeNested unit level elements).render compress =
      p.render compress ++ openingTags compress unit level elements := by
  induction elements generalizing level p with
  | nil => simp [Page.writeNested, openingTags]
  | cons e elements ih =>
    have he : e.body = .children := h e List.mem_cons_self
    have hline : (p.writeElement unit level e).render compress = p.render compress ++
        row compress unit level (opening e.selector e.attributes ++ ">".toList) := by
      rw [Page.render, Page.lines_writeElement, List.flatMap_append, List.flatMap_singleton,
        Line.render_eq, render_element, he]
      rfl
    rw [Page.writeNested, ih (fun d hd => h d (List.mem_cons_of_mem e hd)), hline, openingTags,
      List.append_assoc]

end Elements

namespace State

/-- How a chain breaks off in a state: some elements are written, from the level of the state on, and
the source is read no further, except that content which is never closed reads all of it. -/
structure BreaksOff (s : State) (elements : List Element) (e : CompileError) (after : State) :
    Prop where
  page : after.page = s.page.writeNested s.unit s.level elements
  level : after.level = s.level + elements.length
  indentation : after.indentation = s.indentation
  reads : (∀ n, e ≠ .unmatchedOpening n) → Advances [] s after
  reads_all : ∀ n, e = .unmatchedOpening n → after.remaining = []

variable {s after : State} {e : CompileError}

/-- Content is given up only where the source ends. -/
theorem remaining_of_foldLines {depth : Int} {content : Text}
    (h : s.foldLines depth content = (none, after)) : after.remaining = [] := by
  fun_induction foldLines depth content s with
  | case1 => simp at h
  | case2 depth content s hd hn =>
    obtain rfl : s = after := by simpa using h
    by_contra hne
    simp [nextLine?, atEnd, hne] at hn
  | case3 depth content s hd line next hn ih => exact ih h

theorem breaksOff_of_readBody {rest : Text} (h : s.readBody rest = (.error e, after)) :
    s.BreaksOff [] e after := by
  have hr := s.readBody_reads rest
  rw [h] at hr
  unfold readBody at h
  split at h
  · dsimp only at h
    split at h
    · obtain ⟨rfl, rfl⟩ : CompileError.unbalancedClosing s.lineNumber = e ∧ s = after := by
        simpa using h
      exact ⟨rfl, rfl, rfl, fun _ => .refl s, by simp⟩
    · split at h
      · next last hf =>
        obtain ⟨rfl, rfl⟩ : CompileError.unmatchedOpening s.lineNumber = e ∧ last = after := by
          simpa using h
        exact ⟨hr.page, hr.level, hr.indentation, fun hne => absurd rfl (hne _),
          fun _ _ => remaining_of_foldLines hf⟩
      · simp at h
  · split at h <;> simp at h

theorem breaksOff_of_parseHead {part : Text} (h : parseHead s.lineNumber part = .error e) :
    s.BreaksOff [] e s := by
  obtain ⟨p, rfl⟩ : ∃ p, e = .unclosedPlaceholder p s.lineNumber := by
    rcases Reading.parseHead_cases part with ⟨p, hp⟩ | ⟨element, rest, hp⟩
    · exact ⟨p, by simpa [hp] using h.symm⟩
    · simp [hp] at h
  exact ⟨rfl, rfl, rfl, fun _ => .refl s, by simp⟩

/-- A chain that fails breaks off in front of the first part that cannot be read. -/
theorem writeChain_error {parts : List Text} (h : s.writeChain parts = (.error e, after)) :
    ∃ outer rest elements, parts = outer ++ rest ∧
      List.Forall₂ (OpensAs s.lineNumber) outer elements ∧
      FirstFails s.lineNumber s.lines rest e ∧ s.BreaksOff elements e after := by
  fun_induction writeChain parts s with
  | case1 => simp at h
  | case2 last s e' hp =>
    obtain ⟨rfl, rfl⟩ : e' = e ∧ s = after := by simpa using h
    exact ⟨[], [last], [], rfl, .nil, .attributes hp, breaksOff_of_parseHead hp⟩
  | case3 last s element rest hp e' last' hb =>
    obtain ⟨rfl, rfl⟩ : e' = e ∧ last' = after := by simpa using h
    have hbody : bodyOf rest s.lineNumber s.lines = .error e' := by
      rcases s.readBody_cases rest with ⟨e, he, hf⟩ | ⟨body, k, s', -, hf, -⟩
      · obtain rfl : e' = e := by simpa [hb] using hf
        exact he
      · simp [hb] at hf
    exact ⟨[], [last], [], rfl, .nil, .content hp hbody, breaksOff_of_readBody hb⟩
  | case4 => simp at h
  | case5 part parts s hne e' hp =>
    obtain ⟨rfl, rfl⟩ : e' = e ∧ s = after := by simpa using h
    exact ⟨[], part :: parts, [], rfl, .nil, .attributes hp, breaksOff_of_parseHead hp⟩
  | case6 part parts s hne element rest hp ih =>
    obtain ⟨outer, more, elements, rfl, hopens, hfails, hb⟩ := ih h
    refine ⟨part :: outer, more, element :: elements, rfl, .cons ⟨rest, hp⟩ hopens, hfails,
      hb.page, ?_, hb.indentation, fun hne => ?_, hb.reads_all⟩
    · rw [hb.level, List.length_cons]
      simp only [descend, writeElement]
      omega
    · have hr := hb.reads hne
      exact ⟨hr.remaining, hr.offset, hr.lineNumber, hr.whole⟩

end State

/-- What a line that fails leaves behind. The parts of its chain in front of the first that cannot be
read are written as opening tags, from the level of the state on, and stay open; of that part and
those behind it nothing is written. The unit stays, and only the line itself is read, except that
content which is never closed reads all of the source. -/
theorem failing_line_leaves_outer_parts {s after : State} {e : CompileError}
    (h : s.processLine = (.error e, after)) :
    ∃ line below outer rest elements,
      s.lines = line :: below ∧ chainParts line.trim = outer ++ rest ∧
      List.Forall₂ (OpensAs (s.lineNumber + 1)) outer elements ∧
      FirstFails (s.lineNumber + 1) below rest e ∧
      (∀ compress, after.page.render compress =
        s.page.render compress ++ openingTags compress s.unit s.level elements) ∧
      after.page.openTags =
        (stacked s.level (elements.map (·.tag))).reverse ++ s.page.openTags ∧
      after.level = s.level + outer.length ∧ after.unit = s.unit ∧
      ((∀ n, e ≠ .unmatchedOpening n) → ∃ read, State.Advances read s after ∧ read.lines = [line]) ∧
      (∀ n, e = .unmatchedOpening n → after.remaining = []) := by
  cases hl : s.lines with
  | nil =>
    rw [State.processLine, State.nextLine?_of_nil hl] at h
    simp at h
  | cons line below =>
    obtain ⟨next, hn, hp⟩ := State.nextLine?_of_cons hl
    have hchain : next.writeChain (chainParts line.trim) = (.error e, after) := by
      rw [State.processLine, hn] at h
      dsimp only at h
      split at h
      · simp at h
      · next c text ht =>
        split_ifs at h
        · simp at h
        · rw [ht]
          exact h
    obtain ⟨outer, rest, elements, hparts, hopens, hfails, hb⟩ := State.writeChain_error hchain
    have hbody := body_of_opensAs hopens
    have hbelow : next.lines = below := by rw [hp.lines, hl]; rfl
    have hunit : next.unit = s.unit := congrArg Indentation.unit hp.indentation
    have hpage : after.page = s.page.writeNested s.unit s.level elements := by
      rw [hb.page, hp.page, hp.level, hunit]
    rw [hp.number] at hopens
    rw [hp.number, hbelow] at hfails
    refine ⟨line, below, outer, rest, elements, rfl, hparts, hopens, hfails, fun compress => ?_, ?_,
      ?_, ?_, fun hne => ?_, hb.reads_all⟩
    · rw [hpage, render_writeNested hbody]
    · rw [hpage, Page.openTags_writeNested, nestedTags_of_children hbody]
    · rw [hb.level, hp.level, hopens.length_eq]
    · exact (congrArg Indentation.unit hb.indentation).trans hunit
    · obtain ⟨read, hread, -⟩ := State.advances_nextLine? hn
      have hlines := hread.lines_eq_take hp
      refine ⟨read, ?_, ?_⟩
      · have hall := hread.trans (hb.reads hne)
        rwa [List.append_nil] at hall
      · rw [hlines, hl]
        rfl

/-- The content of a third part is never closed. The two parts in front of it are open, below the tag
that was open before, and the line under it is read as well. -/
theorem failing_line_leaves_outer_parts_content :
    let s := preset {} "ul.a \\-\\ li b=c \\-\\ p <x\ny".toList "\t".toList 3 [⟨1, "div".toList⟩]
    let after := s.processLine.2
    s.processLine = (.error (.unmatchedOpening 1), after) ∧
      after.page.render false = "\t\t\t<ul class=\"a\">\n\t\t\t\t<li b=\"c\">\n".toList ∧
      after.page.openTags = [⟨4, "li".toList⟩, ⟨3, "ul".toList⟩, ⟨1, "div".toList⟩] ∧
      ∃ line below outer rest elements,
        s.lines = line :: below ∧ chainParts line.trim = outer ++ rest ∧
        List.Forall₂ (OpensAs (s.lineNumber + 1)) outer elements ∧
        FirstFails (s.lineNumber + 1) below rest (.unmatchedOpening 1) ∧
        (∀ compress, after.page.render compress =
          s.page.render compress ++ openingTags compress s.unit s.level elements) ∧
        after.page.openTags =
          (stacked s.level (elements.map (·.tag))).reverse ++ s.page.openTags ∧
        after.level = s.level + outer.length ∧ after.unit = s.unit ∧ after.remaining = [] := by
  intro s after
  have h : s.processLine = (.error (.unmatchedOpening 1), after) :=
    Prod.ext (by decide +kernel) rfl
  obtain ⟨line, below, outer, rest, elements, hl, hparts, hopens, hfails, hrender, htags, hlevel,
    hunit, -, hall⟩ := failing_line_leaves_outer_parts h
  exact ⟨h, by decide +kernel, by decide +kernel, line, below, outer, rest, elements, hl, hparts,
    hopens, hfails, hrender, htags, hlevel, hunit, hall 1 rfl⟩

end IndentMarkup.Compile
