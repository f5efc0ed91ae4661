import IndentMarkup.Text.Blank

/-! The shorthand that starts an element: a tag, then identifiers and classes. -/
namespace IndentMarkup

structure Selector where
  tag : Text
  id : Option Text := none
  classes : List Text := []
deriving DecidableEq, Repr

namespace Selector

/-- A part of a selector after its tag. -/
inductive Fragment
  | id (name : Text)
  | className (name : Text)
deriving DecidableEq, Repr

def Fragment.id? : Fragment → Option Text
  | .id name => some name
  | .className _ => none

def Fragment.className? : Fragment → Option Text
  | .id _ => none
  | .className name => some name

/-- The text before the first marker, and the fragments that the markers start. -/
def split : Text → Text × List Fragment
  | [] => ([], [])
  | c :: t =>
    let (head, fragments) := split t
    if c = '#' then ([], .id head :: fragments)
    else if c = '.' then ([], .className head :: fragments)
    else (c :: head, fragments)

def defaultTag : Text := "div".toList

/-- Reads a selector: the last identifier counts, and every class is kept, empty ones too. -/
def ofText (t : Text) : Selector :=
  let (head, fragments) := split t
  { tag := if head.isEmpty then defaultTag else head
    id := (fragments.filterMap Fragment.id?).getLast?
    classes := fragments.filterMap Fragment.className? }

end Selector
end IndentMarkup
