import IndentMarkup.Html.Page

/-! Documents as trees, and the HTML that they stand for. -/
namespace IndentMarkup.Html

/-- A document is a list of nodes, of which only elements without a text of their own have
children. -/
inductive Node
  | element (selector : Selector) (attributes : List Attribute) (children : List Node)
  | inline (selector : Selector) (attributes : List Attribute) (text : Text)
  | selfClosing (selector : Selector) (attributes : List Attribute)
  | verbatim (text : Text)

/-- An attribute in a tag, with the space before it. -/
def quoted (name value : Text) : Text :=
  " ".toList ++ name ++ "=\"".toList ++ value ++ "\"".toList

/-- An opening tag up to where it ends: identifier, classes and attributes in this order. -/
def opening (s : Selector) (attributes : List Attribute) : Text :=
  "<".toList ++ s.tag ++ (s.id.elim [] fun id => quoted "id".toList id) ++
    (if s.classes = [] then [] else quoted "class".toList (" ".toList.intercalate s.classes)) ++
    attributes.flatMap fun a => quoted a.name a.value

/-- One row of output: compressed output has neither indentation nor line breaks. -/
def row (compress : Bool) (unit : Text) (level : Nat) (t : Text) : Text :=
  if compress then t else (List.replicate level unit).flatten ++ t ++ "\n".toList

namespace Node

mutual

/-- The HTML of a node at a level. -/
def html (compress : Bool) (unit : Text) (level : Nat) : Node → Text
  | element s attributes children =>
    row compress unit level (opening s attributes ++ ">".toList) ++
      htmlAll compress unit (level + 1) children ++
      row compress unit level ("</".toList ++ s.tag ++ ">".toList)
  | inline s attributes text =>
    row compress unit level
      (opening s attributes ++ ">".toList ++ text ++ "</".toList ++ s.tag ++ ">".toList)
  | selfClosing s attributes => row compress unit level (opening s attributes ++ " />".toList)
  | verbatim text => row compress unit level text

def htmlAll (compress : Bool) (unit : Text) (level : Nat) : List Node → Text
  | [] => []
  | n :: nodes => html compress unit level n ++ htmlAll compress unit level nodes

end

mutual

/-- What is written for a node, piece by piece. -/
def pieces : Node → List Piece
  | element s attributes children =>
    .element ⟨s, attributes, .children⟩ :: piecesAll children ++ [.closing s.tag]
  | inline s attributes text => [.element ⟨s, attributes, .inline text⟩]
  | selfClosing s attributes => [.element ⟨s, attributes, .selfClosing⟩]
  | verbatim text => [.verbatim text]

def piecesAll : List Node → List Piece
  | [] => []
  | n :: nodes => pieces n ++ piecesAll nodes

end

theorem piecesAll_append (a b : List Node) : piecesAll (a ++ b) = piecesAll a ++ piecesAll b := by
  induction a with
  | nil => rfl
  | cons n a ih => simp [piecesAll, ih]

end Node

theorem flatten_render (attributes : List Attribute) :
    (attributes.map Attribute.render).flatten =
      attributes.flatMap fun a => quoted a.name a.value := by
  rw [List.flatMap_def]
  congr 1
  apply List.map_congr_left
  intro a _
  simp [Attribute.render, quoted]

theorem opening_eq (e : Element) :
    '<' :: e.tag ++ (e.allAttributes.map Attribute.render).flatten =
      opening e.selector e.attributes := by
  rw [flatten_render]
  unfold opening Element.allAttributes Element.tag
  cases e.selector.id <;> by_cases hc : e.selector.classes = [] <;> simp [hc]

theorem render_element (e : Element) :
    (Piece.element e).render = opening e.selector e.attributes ++
      match e.body with
      | .children => ">".toList
      | .selfClosing => " />".toList
      | .inline text => ">".toList ++ text ++ "</".toList ++ e.selector.tag ++ ">".toList := by
  rw [Piece.render, opening_eq]
  cases e.body <;> simp [closingTag, Element.tag]

theorem render_closing (tag : Text) :
    (Piece.closing tag).render = "</".toList ++ tag ++ ">".toList := by
  simp [Piece.render, closingTag]

theorem Line.render_eq (compress : Bool) (l : Line) :
    l.render compress = row compress l.unit l.level l.piece.render := by
  simp [Line.render, row]

namespace Node

mutual

/-- Compressed, a node is the texts of its pieces. -/
theorem html_compressed (unit : Text) (level : Nat) (n : Node) :
    html true unit level n = n.pieces.flatMap Piece.render := by
  cases n with
  | element s attributes children =>
    have h := htmlAll_compressed unit (level + 1) children
    simp [html, pieces, row, h, render_element, render_closing]
  | inline s attributes text => simp [html, pieces, row, render_element]
  | selfClosing s attributes => simp [html, pieces, row, render_element]
  | verbatim text => simp [html, pieces, row, Piece.render]

theorem htmlAll_compressed (unit : Text) (level : Nat) (nodes : List Node) :
    htmlAll true unit level nodes = (piecesAll nodes).flatMap Piece.render := by
  cases nodes with
  | nil => rfl
  | cons n nodes =>
    simp [htmlAll, piecesAll, html_compressed unit level n, htmlAll_compressed unit level nodes]

end

end Node
end IndentMarkup.Html
