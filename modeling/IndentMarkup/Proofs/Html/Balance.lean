import Mathlib.Tactic.SplitIfs
import IndentMarkup.Proofs.Html.Page
import IndentMarkup.Proofs.Html.Tree

/-! Pages built by any sequence of operations. Whatever is written and closed in whatever order, the
pieces are those of a forest in which the open tags are not closed yet. -/
namespace IndentMarkup.Html

/-- What is written on a page, without its layout. -/
def Page.pieces (p : Page) : List Piece :=
  p.lines.toList.map (·.piece)

/-- The operations on a page. -/
inductive Action
  | closeTag
  | closeFrom (level : Nat)
  | closeAll
  | writeVerbatim (level : Nat) (text : Text)
  | writeElement (level : Nat) (e : Element)

def Action.apply (unit : Text) (p : Page) : Action → Page
  | closeTag => (p.closeTag? unit).getD p
  | closeFrom level => p.closeFrom unit level
  | closeAll => p.closeAll unit
  | writeVerbatim level text => p.writeVerbatim unit level text
  | writeElement level e => p.writeElement unit level e

/-- Whether an operation leaves a new tag open. -/
def Action.opens : Action → Bool
  | writeElement _ e => e.body = .children
  | _ => false

/-- Operations one after the other, each with the unit known at its time. -/
def Page.perform (p : Page) (actions : List (Text × Action)) : Page :=
  actions.foldl (fun p a => a.2.apply a.1 p) p

@[simp] theorem Page.perform_nil (p : Page) : p.perform [] = p := rfl

@[simp] theorem Page.perform_cons (p : Page) (unit : Text) (a : Action)
    (actions : List (Text × Action)) :
    p.perform ((unit, a) :: actions) = (a.apply unit p).perform actions := rfl

theorem Page.perform_append (p : Page) (a b : List (Text × Action)) :
    p.perform (a ++ b) = (p.perform a).perform b :=
  List.foldl_append

/-- The tags that are open once one more piece is written. -/
def Piece.track (tags : List Text) : Piece → List Text
  | element e => if e.body = .children then e.tag :: tags else tags
  | closing _ => tags.tail
  | verbatim _ => tags

/-- The tags opened and not closed by pieces, the most recently opened first. -/
def unclosed (pieces : List Piece) : List Text :=
  pieces.foldl Piece.track []

/-- Every closing tag is that of the most recently opened tag not yet closed. -/
def Matched (pieces : List Piece) : Prop :=
  ∀ before tag after, pieces = before ++ .closing tag :: after → (unclosed before).head? = some tag

/-- The pieces of a forest in which the `tags` are not closed yet. -/
inductive Builds : (tags : List OpenTag) → List Piece → Prop
  | done (forest : List Node) : Builds [] (Node.piecesAll forest)
  | inside {tags : List OpenTag} {pieces : List Piece} (level : Nat) (s : Selector)
      (attributes : List Attribute) (children : List Node) : Builds tags pieces →
      Builds (⟨level, s.tag⟩ :: tags)
        (pieces ++ .element ⟨s, attributes, .children⟩ :: Node.piecesAll children)

theorem Builds.node {tags : List OpenTag} {pieces : List Piece} (h : Builds tags pieces)
    (n : Node) : Builds tags (pieces ++ n.pieces) := by
  have hn : n.pieces = Node.piecesAll [n] := by simp [Node.piecesAll]
  cases h with
  | done forest =>
    rw [hn, ← Node.piecesAll_append]
    exact .done _
  | inside level s attributes children h =>
    rw [hn, List.append_assoc, List.cons_append, ← Node.piecesAll_append]
    exact .inside level s attributes _ h

theorem Builds.close {t : OpenTag} {tags : List OpenTag} {pieces : List Piece}
    (h : Builds (t :: tags) pieces) : Builds tags (pieces ++ [.closing t.tag]) := by
  cases h with
  | inside level s attributes children h =>
    simpa [Node.pieces] using h.node (.element s attributes children)

theorem Builds.exists_forest {pieces : List Piece} (h : Builds [] pieces) :
    ∃ forest, pieces = Node.piecesAll forest := by
  cases h with
  | done forest => exact ⟨forest, rfl⟩

theorem unclosed_concat (pieces : List Piece) (p : Piece) :
    unclosed (pieces ++ [p]) = p.track (unclosed pieces) := by
  simp [unclosed]

theorem Matched.concat {pieces : List Piece} {p : Piece} (h : Matched pieces)
    (hp : ∀ tag, p = .closing tag → (unclosed pieces).head? = some tag) :
    Matched (pieces ++ [p]) := by
  intro before tag after he
  rcases List.eq_nil_or_concat after with rfl | ⟨after, q, rfl⟩
  · obtain ⟨rfl, hq⟩ := List.append_inj' he rfl
    exact hp tag (by simpa using hq)
  · have he' : pieces ++ [p] = (before ++ .closing tag :: after) ++ [q] := by simpa using he
    obtain ⟨rfl, -⟩ := List.append_inj' he' rfl
    exact h before tag after rfl

/-- The pieces written are those that the open tags wait for. -/
structure Consistent (tags : List OpenTag) (pieces : List Piece) : Prop where
  builds : Builds tags pieces
  unclosed : unclosed pieces = tags.map (·.tag)
  matched : Matched pieces

theorem Consistent.empty : Consistent [] [] :=
  ⟨.done [], rfl, by intro before tag after h; simp at h⟩

theorem Consistent.leaf {tags : List OpenTag} {pieces : List Piece} (h : Consistent tags pieces)
    {p : Piece} (n : Node) (hn : n.pieces = [p]) (ht : ∀ tags, p.track tags = tags)
    (hc : p.isClosing = false) : Consistent tags (pieces ++ [p]) := by
  refine ⟨hn ▸ h.builds.node n, ?_, h.matched.concat ?_⟩
  · rw [unclosed_concat, ht, h.unclosed]
  · rintro tag rfl
    simp [Piece.isClosing] at hc

theorem Consistent.inside {tags : List OpenTag} {pieces : List Piece} (h : Consistent tags pieces)
    (level : Nat) {e : Element} (he : e.body = .children) :
    Consistent (⟨level, e.tag⟩ :: tags) (pieces ++ [.element e]) := by
  refine ⟨?_, ?_, h.matched.concat (by simp)⟩
  · cases e with
    | mk s attributes body =>
      obtain rfl : body = .children := he
      exact .inside level s attributes [] h.builds
  · rw [unclosed_concat, h.unclosed]
    simp [Piece.track, he]

theorem Consistent.close {tags : List OpenTag} {pieces : List Piece} (closed : List OpenTag)
    (h : Consistent (closed ++ tags) pieces) :
    Consistent tags (pieces ++ closed.map fun t => .closing t.tag) := by
  induction closed generalizing pieces with
  | nil => simpa using h
  | cons t closed ih =>
    have hone : Consistent (closed ++ tags) (pieces ++ [.closing t.tag]) := by
      refine ⟨h.builds.close, ?_, h.matched.concat ?_⟩
      · rw [unclosed_concat, h.unclosed]
        simp [Piece.track]
      · intro tag ht
        have : t.tag = tag := by simpa using ht
        simp [h.unclosed, this]
    simpa using ih hone

namespace Page

theorem pieces_closeWhile (p : Page) (unit : Text) (due : OpenTag → Bool) :
    (p.closeWhile unit due).pieces =
      p.pieces ++ (p.openTags.takeWhile due).map fun t => .closing t.tag := by
  simp [pieces, OpenTag.close, Function.comp_def]

theorem consistent_closeWhile {p : Page} (h : Consistent p.openTags p.pieces) (unit : Text)
    (due : OpenTag → Bool) :
    Consistent (p.closeWhile unit due).openTags (p.closeWhile unit due).pieces := by
  rw [← List.takeWhile_append_dropWhile (p := due) (l := p.openTags)] at h
  have hc := h.close _
  rwa [← pieces_closeWhile p unit due] at hc

theorem consistent_apply {p : Page} (h : Consistent p.openTags p.pieces) (unit : Text)
    (a : Action) : Consistent (a.apply unit p).openTags (a.apply unit p).pieces := by
  cases a with
  | closeTag =>
    cases ho : p.openTags with
    | nil => simpa [Action.apply, closeTag?, ho] using h
    | cons t tags =>
      have hc := Consistent.close [t] (ho ▸ h)
      simpa [Action.apply, closeTag?, ho, pieces, OpenTag.close] using hc
  | closeFrom level => exact consistent_closeWhile h unit _
  | closeAll => exact consistent_closeWhile h unit _
  | writeVerbatim level text =>
    have hv := h.leaf (.verbatim text) rfl (fun _ => rfl) rfl
    simpa [Action.apply, pieces] using hv
  | writeElement level e =>
    cases hb : e.body with
    | children =>
      have hi := h.inside level hb
      simpa [Action.apply, pieces, tagsOf, hb] using hi
    | selfClosing =>
      have hl := h.leaf (p := .element e) (.selfClosing e.selector e.attributes)
        (by simp [Node.pieces, ← hb]) (by simp [Piece.track, hb]) rfl
      simpa [Action.apply, pieces, tagsOf, hb] using hl
    | inline text =>
      have hl := h.leaf (p := .element e) (.inline e.selector e.attributes text)
        (by simp [Node.pieces, ← hb]) (by simp [Piece.track, hb]) rfl
      simpa [Action.apply, pieces, tagsOf, hb] using hl

theorem consistent_perform {p : Page} (h : Consistent p.openTags p.pieces)
    (actions : List (Text × Action)) :
    Consistent (p.perform actions).openTags (p.perform actions).pieces := by
  induction actions generalizing p with
  | nil => exact h
  | cons a actions ih => exact ih (consistent_apply h a.1 a.2)

theorem mem_pieces_apply {p : Page} {unit : Text} {a : Action} {e : Element}
    (h : .element e ∈ (a.apply unit p).pieces) :
    .element e ∈ p.pieces ∨ ∃ level, a = .writeElement level e := by
  cases a with
  | closeTag =>
    cases ho : p.openTags with
    | nil => exact .inl (by simpa [Action.apply, closeTag?, ho] using h)
    | cons t tags =>
      left
      simpa [Action.apply, closeTag?, ho, pieces, OpenTag.close] using h
  | closeFrom level =>
    left
    simpa [Action.apply, closeFrom, pieces_closeWhile] using h
  | closeAll =>
    left
    simpa [Action.apply, closeAll, pieces_closeWhile] using h
  | writeVerbatim level text =>
    left
    simpa [Action.apply, pieces] using h
  | writeElement level d =>
    have hm : .element e ∈ p.pieces ∨ e = d := by
      simpa [Action.apply, pieces] using h
    rcases hm with hm | rfl
    · exact .inl hm
    · exact .inr ⟨level, rfl⟩

/-- The elements on a page were written by some operation. -/
theorem mem_pieces_perform {p : Page} {actions : List (Text × Action)} {e : Element}
    (h : .element e ∈ (p.perform actions).pieces) :
    .element e ∈ p.pieces ∨ ∃ unit level, (unit, .writeElement level e) ∈ actions := by
  induction actions generalizing p with
  | nil => exact .inl h
  | cons a actions ih =>
    obtain ⟨unit, a⟩ := a
    rcases ih h with hm | ⟨unit', level, hm⟩
    · rcases mem_pieces_apply hm with hm | ⟨level, rfl⟩
      · exact .inl hm
      · exact .inr ⟨unit, level, by simp⟩
    · exact .inr ⟨unit', level, by simp [hm]⟩

/-- Closing tags come from open tags only: their numbers together grow by the tags opened. -/
theorem closings_closeWhile (p : Page) (unit : Text) (due : OpenTag → Bool) :
    (p.closeWhile unit due).pieces.countP Piece.isClosing +
        (p.closeWhile unit due).openTags.length =
      p.pieces.countP Piece.isClosing + p.openTags.length := by
  have hl := congrArg List.length (List.takeWhile_append_dropWhile (p := due) (l := p.openTags))
  have hc : ((p.openTags.takeWhile due).map fun t => Piece.closing t.tag).countP Piece.isClosing =
      (p.openTags.takeWhile due).length := by
    simp [List.countP_map, Function.comp_def, Piece.isClosing]
  rw [List.length_append] at hl
  rw [pieces_closeWhile, List.countP_append, hc, openTags_closeWhile]
  omega

theorem closings_apply (p : Page) (unit : Text) (a : Action) :
    (a.apply unit p).pieces.countP Piece.isClosing + (a.apply unit p).openTags.length =
      p.pieces.countP Piece.isClosing + p.openTags.length + if a.opens then 1 else 0 := by
  cases a with
  | closeTag =>
    cases ho : p.openTags with
    | nil => simp [Action.apply, Action.opens, closeTag?, ho]
    | cons t tags =>
      simp [Action.apply, Action.opens, closeTag?, ho, pieces, OpenTag.close, Piece.isClosing]
      omega
  | closeFrom level => exact closings_closeWhile p unit _
  | closeAll => exact closings_closeWhile p unit _
  | writeVerbatim level text =>
    simp [Action.apply, Action.opens, pieces, Piece.isClosing]
  | writeElement level e =>
    cases hb : e.body <;>
      simp [Action.apply, Action.opens, tagsOf, pieces, Piece.isClosing, hb] <;> omega

theorem closings_perform (p : Page) (actions : List (Text × Action)) :
    (p.perform actions).pieces.countP Piece.isClosing + (p.perform actions).openTags.length =
      p.pieces.countP Piece.isClosing + p.openTags.length + actions.countP (·.2.opens) := by
  induction actions generalizing p with
  | nil => simp [perform]
  | cons a actions ih =>
    obtain ⟨unit, a⟩ := a
    have ha := closings_apply p unit a
    rw [perform_cons, ih, List.countP_cons]
    dsimp only
    omega

end Page
end IndentMarkup.Html
