import IndentMarkup.Markup.Element

/-! Lines of HTML, laid out one below the other or compressed. -/
namespace IndentMarkup.Html

def closingTag (tag : Text) : Text :=
  '<' :: '/' :: tag ++ ['>']

/-- What one line of output says. -/
inductive Piece
  /-- An element: its opening tag, and the rest of it unless children follow. -/
  | element (e : Element)
  /-- The closing tag of an element with children. -/
  | closing (tag : Text)
  /-- Text that is passed through. -/
  | verbatim (text : Text)
deriving DecidableEq, Repr

namespace Piece

def render : Piece → Text
  | element e =>
    '<' :: e.tag ++ (e.allAttributes.map Attribute.render).flatten ++
      match e.body with
      | .children => ['>']
      | .selfClosing => " />".toList
      | .inline text => '>' :: text ++ closingTag e.tag
  | closing tag => closingTag tag
  | verbatim text => text

end Piece

/-- A piece with its level, and the unit of indentation known when it was written. -/
structure Line where
  unit : Text
  level : Nat
  piece : Piece
deriving DecidableEq, Repr

namespace Line

/-- Compressed output is the bare pieces; otherwise each is indented and ends its line. -/
def render (compress : Bool) (l : Line) : Text :=
  if compress then l.piece.render
  else (List.replicate l.level l.unit).flatten ++ l.piece.render ++ ['\n']

end Line
end IndentMarkup.Html
