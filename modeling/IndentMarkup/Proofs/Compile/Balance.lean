import IndentMarkup.Proofs.Compile.History
import IndentMarkup.Proofs.Html.Balance

/-! What is compiled is balanced: the pieces written for a source are those of a forest. -/
namespace IndentMarkup.Compile
open Html

/-- An addition as a sequence of operations on the page. -/
def additionActions (unit : Text) (level : Nat) : Addition → List (Text × Action)
  | .verbatim text => [(unit, .writeVerbatim level text)]
  | .nested elements => elements.mapIdx fun i e => (unit, .writeElement (level + i) e)

theorem write_eq_perform (unit : Text) (level : Nat) (p : Page) (a : Addition) :
    a.write unit level p = p.perform (additionActions unit level a) := by
  cases a with
  | verbatim text => rfl
  | nested elements =>
    change p.writeNested unit level elements = _
    induction elements generalizing level p with
    | nil => rfl
    | cons e elements ih =>
      have hl : ∀ i, level + 1 + i = level + (i + 1) := by omega
      rw [Page.writeNested, ih]
      simp [additionActions, List.mapIdx_cons, hl, Action.apply]

/-- Operations that write no element without a tag. -/
def Tagged (actions : List (Text × Action)) : Prop :=
  ∀ unit level e, (unit, .writeElement level e) ∈ actions → e.tag ≠ []

theorem tagged_addition {line : Text} {a : Addition} (h : State.Adds line a) (unit : Text)
    (level : Nat) : Tagged (additionActions unit level a) := by
  intro unit' level' e hm
  cases h with
  | verbatim _ => simp [additionActions] at hm
  | @nested elements hc =>
    have he : e ∈ elements := by
      obtain ⟨i, hi, heq⟩ := List.mem_mapIdx.mp hm
      obtain ⟨-, -, rfl⟩ : unit = unit' ∧ level + i = level' ∧ elements[i] = e := by
        simpa using heq
      exact List.getElem_mem hi
    have hs : e.selector ∈ (chainParts line.trim).map partSelector :=
      hc.selectors.subset (List.mem_map_of_mem he)
    obtain ⟨part, -, hp⟩ := List.mem_map.mp hs
    rw [Element.tag, ← hp]
    exact Selector.tag_ofText_ne _

/-- The page of a run is made by operations, and every element on it has a tag. -/
theorem State.Reaches.exists_perform {s t : State} {past : List LineRecord}
    (h : s.Reaches past t) : ∃ actions, Tagged actions ∧ t.page = s.page.perform actions := by
  induction h with
  | start => exact ⟨[], by simp [Tagged], rfl⟩
  | @line past t next _ _ hs ih =>
    obtain ⟨actions, ht, hp⟩ := ih
    obtain ⟨a, ha, hpage, -, -⟩ := t.step_page
    rw [hs, write_eq_perform] at hpage
    refine ⟨actions ++ (t.readLevel.unit, .closeFrom t.readLevel.level) ::
      additionActions t.readLevel.unit t.readLevel.level a, ?_, ?_⟩
    · intro unit level e hm
      rcases List.mem_append.mp hm with hm | hm
      · exact ht unit level e hm
      · exact tagged_addition ha _ _ unit level e (by simpa using hm)
    · rw [Page.perform_append, ← hp]
      exact hpage

theorem exists_perform_of_run {options : Options} {source : Text} {s : State}
    (h : (initial options source).run = .ok s) :
    ∃ actions unit, Tagged actions ∧ s.page = (Page.perform {} actions).closeAll unit := by
  obtain ⟨past, t, hr, -, rfl⟩ := State.exists_of_run h
  obtain ⟨actions, ht, hp⟩ := hr.exists_perform
  refine ⟨actions, t.unit, ht, ?_⟩
  change t.page.closeAll t.unit = _
  rw [hp]
  rfl

theorem consistent_perform_closeAll (actions : List (Text × Action)) (unit : Text) :
    Consistent [] ((Page.perform {} actions).closeAll unit).pieces := by
  have h : Consistent (Page.perform {} actions).openTags (Page.perform {} actions).pieces :=
    Page.consistent_perform .empty actions
  have hc := Page.consistent_closeWhile h unit fun _ => true
  have ho : ((Page.perform {} actions).closeWhile unit fun _ => true).openTags = [] := by
    simp
  rwa [ho] at hc

theorem render_compressed (p : Page) : p.render true = p.pieces.flatMap Piece.render := by
  rw [Page.render, Page.pieces, List.flatMap_map]
  rfl

/-- What compiles to compressed HTML is the pieces of a forest and nothing else, every element of
which has a tag. In general, any operations on an empty page leave it balanced once all tags are
closed: as many tags are closed as were opened, each of them the one opened last. -/
theorem compressed_is_forest :
    (∀ (token : Char) (source out : Text), compile ⟨true, token⟩ source = .ok out →
      ∃ (s : State) (forest : List Node), (initial ⟨true, token⟩ source).run = .ok s ∧
        s.page.pieces = Node.piecesAll forest ∧
        (∀ e, .element e ∈ s.page.pieces → e.tag ≠ []) ∧
        out = Node.htmlAll true [] 0 forest) ∧
    ∀ (actions : List (Text × Action)) (unit : Text),
      let page := (Page.perform {} actions).closeAll unit
      page.openTags = [] ∧ (∃ forest, page.pieces = Node.piecesAll forest) ∧
        actions.countP (·.2.opens) = page.pieces.countP Piece.isClosing ∧ Matched page.pieces := by
  refine ⟨fun token source out hc => ?_, fun actions unit => ?_⟩
  · obtain ⟨s, hr, rfl⟩ := exists_of_compile hc
    obtain ⟨actions, unit, ht, hp⟩ := exists_perform_of_run hr
    obtain ⟨forest, hf⟩ := (consistent_perform_closeAll actions unit).builds.exists_forest
    rw [← hp] at hf
    refine ⟨s, forest, hr, hf, fun e he => ?_, ?_⟩
    · rw [hp, Page.closeAll, Page.pieces_closeWhile] at he
      obtain hm | ⟨unit', level, hm⟩ := Page.mem_pieces_perform (by simpa using he)
      · simp [Page.pieces] at hm
      · exact ht unit' level e hm
    · rw [render_compressed, hf, Node.htmlAll_compressed]
  · have h := consistent_perform_closeAll actions unit
    have hopen := Page.closings_perform {} actions
    have hclose := Page.closings_closeWhile (Page.perform {} actions) unit fun _ => true
    have ho : ((Page.perform {} actions).closeWhile unit fun _ => true).openTags = [] := by simp
    refine ⟨ho, h.builds.exists_forest, ?_, h.matched⟩
    rw [ho, List.length_nil] at hclose
    rw [show ({} : Page).pieces = [] from rfl, List.countP_nil, List.length_nil] at hopen
    change _ = ((Page.perform {} actions).closeWhile unit fun _ => true).pieces.countP _
    omega

/-- Tags are closed after a chain with inline content, behind a ragged indent, across a blank line
and at the end of the source. -/
theorem compressed_is_forest_ragged :
    ∃ forest : List Node,
      "<ul><li a=\"b\">x</li><p></p><q /></ul><r></r>".toList = Node.htmlAll true [] 0 forest := by
  have hc : compile ⟨true, '\x60'⟩ "ul \\-\\ li a=b <x>\n  p\n   q /\n\nr".toList =
      .ok "<ul><li a=\"b\">x</li><p></p><q /></ul><r></r>".toList := by with_unfolding_all rfl
  obtain ⟨s, forest, -, -, -, hout⟩ := compressed_is_forest.1 _ _ _ hc
  exact ⟨forest, hout⟩

end IndentMarkup.Compile
