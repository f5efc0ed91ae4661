import IndentMarkup.Markup.Attribute
import IndentMarkup.Markup.Selector

/-! Elements as they are read from a line. -/
namespace IndentMarkup

/-- How an element ends. -/
inductive Body
  /-- A closing tag follows once its children are written. -/
  | children
  /-- The opening tag closes itself. -/
  | selfClosing
  /-- Text, and the closing tag right behind it. -/
  | inline (text : Text)
deriving DecidableEq, Repr

structure Element where
  selector : Selector
  attributes : List Attribute := []
  body : Body := .children
deriving DecidableEq, Repr

namespace Element

def tag (e : Element) : Text := e.selector.tag

/-- Identifier, classes parted by spaces, then the other attributes in the order they were given. -/
def allAttributes (e : Element) : List Attribute :=
  (e.selector.id.map (⟨"id".toList, ·⟩)).toList ++
    (if e.selector.classes.isEmpty then []
      else [⟨"class".toList, [' '].intercalate e.selector.classes⟩]) ++
    e.attributes

end Element
end IndentMarkup
