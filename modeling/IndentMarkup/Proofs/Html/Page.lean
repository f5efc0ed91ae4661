import IndentMarkup.Html.Page

/-! What each operation on a page does to its lines and to its open tags. -/
namespace IndentMarkup.Html

/-- What a line of source adds to a page. -/
inductive Addition
  | verbatim (text : Text)
  /-- Elements, each one level inside the one before. -/
  | nested (elements : List Element)

def Piece.isClosing : Piece → Bool
  | closing _ => true
  | _ => false

namespace Page

def writeNested (unit : Text) : Nat → List Element → Page → Page
  | _, [], p => p
  | level, e :: elements, p => writeNested unit (level + 1) elements (p.writeElement unit level e)

@[simp] theorem lines_closeWhile (p : Page) (unit : Text) (due : OpenTag → Bool) :
    (p.closeWhile unit due).lines.toList =
      p.lines.toList ++ (p.openTags.takeWhile due).map (·.close unit) := by
  simp [closeWhile]

@[simp] theorem openTags_closeWhile (p : Page) (unit : Text) (due : OpenTag → Bool) :
    (p.closeWhile unit due).openTags = p.openTags.dropWhile due := rfl

theorem closeFrom_of_lt {p : Page} {level : Nat} (h : ∀ t ∈ p.openTags.head?, t.level < level)
    (unit : Text) : p.closeFrom unit level = p := by
  obtain ⟨tags, lines⟩ := p
  unfold closeFrom closeWhile
  cases tags with
  | nil => simp
  | cons t tags =>
    have ht : ¬level ≤ t.level := by
      have := h t rfl
      omega
    simp [ht]

@[simp] theorem lines_writeVerbatim (p : Page) (unit : Text) (level : Nat) (text : Text) :
    (p.writeVerbatim unit level text).lines.toList =
      p.lines.toList ++ [⟨unit, level, .verbatim text⟩] := by
  simp [writeVerbatim, push]

@[simp] theorem openTags_writeVerbatim (p : Page) (unit : Text) (level : Nat) (text : Text) :
    (p.writeVerbatim unit level text).openTags = p.openTags := rfl

@[simp] theorem lines_writeElement (p : Page) (unit : Text) (level : Nat) (e : Element) :
    (p.writeElement unit level e).lines.toList =
      p.lines.toList ++ [⟨unit, level, .element e⟩] := by
  cases hb : e.body <;> simp [writeElement, push, hb]

/-- The tag that an element leaves open. -/
def tagsOf (level : Nat) (e : Element) : List OpenTag :=
  if e.body = .children then [⟨level, e.tag⟩] else []

@[simp] theorem openTags_writeElement (p : Page) (unit : Text) (level : Nat) (e : Element) :
    (p.writeElement unit level e).openTags = tagsOf level e ++ p.openTags := by
  cases hb : e.body <;> simp [writeElement, push, tagsOf, hb]

@[simp] theorem lines_writeNested (p : Page) (unit : Text) (level : Nat) (elements : List Element) :
    (p.writeNested unit level elements).lines.toList =
      p.lines.toList ++ elements.mapIdx fun i e => ⟨unit, level + i, .element e⟩ := by
  induction elements generalizing level p with
  | nil => simp [writeNested]
  | cons e elements ih =>
    have hl : ∀ i, level + 1 + i = level + (i + 1) := by omega
    rw [writeNested, ih]
    simp [List.mapIdx_cons, hl]

/-- The tags that nested elements leave open, the outermost first. -/
def nestedTags : (level : Nat) → List Element → List OpenTag
  | _, [] => []
  | level, e :: elements => tagsOf level e ++ nestedTags (level + 1) elements

@[simp] theorem openTags_writeNested (p : Page) (unit : Text) (level : Nat)
    (elements : List Element) :
    (p.writeNested unit level elements).openTags =
      (nestedTags level elements).reverse ++ p.openTags := by
  induction elements generalizing level p with
  | nil => rfl
  | cons e elements ih =>
    rw [writeNested, ih, openTags_writeElement, nestedTags, List.reverse_append,
      List.append_assoc]
    have : (tagsOf level e).reverse = tagsOf level e := by
      unfold tagsOf
      split <;> rfl
    rw [this]

end Page

namespace Addition

def write (unit : Text) (level : Nat) (p : Page) : Addition → Page
  | verbatim text => p.writeVerbatim unit level text
  | nested elements => p.writeNested unit level elements

def lines (unit : Text) (level : Nat) : Addition → List Line
  | verbatim text => [⟨unit, level, .verbatim text⟩]
  | nested elements => elements.mapIdx fun i e => ⟨unit, level + i, .element e⟩

/-- The tags that an addition leaves open, innermost first. -/
def tags (level : Nat) : Addition → List OpenTag
  | verbatim _ => []
  | nested elements => (Page.nestedTags level elements).reverse

@[simp] theorem lines_write (a : Addition) (unit : Text) (level : Nat) (p : Page) :
    (a.write unit level p).lines.toList = p.lines.toList ++ a.lines unit level := by
  cases a <;> simp [write, lines]

@[simp] theorem openTags_write (a : Addition) (unit : Text) (level : Nat) (p : Page) :
    (a.write unit level p).openTags = a.tags level ++ p.openTags := by
  cases a <;> simp [write, tags]

end Addition

end IndentMarkup.Html
