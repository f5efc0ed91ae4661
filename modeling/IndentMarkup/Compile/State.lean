import IndentMarkup.Compile.Error
import IndentMarkup.Compile.Options
import IndentMarkup.Html.Page
import IndentMarkup.Markup.Indentation
import IndentMarkup.Text.Bytes

/-! The state of a compilation: how far the source is read, and what is written. -/
namespace IndentMarkup.Compile

structure State where
  token : Char := ({} : Options).token
  /-- The part of the source that is not read yet. -/
  remaining : Text
  /-- The number of bytes read. -/
  offset : Nat := 0
  /-- The number of lines read. -/
  lineNumber : Nat := 0
  indentation : Indentation := {}
  /-- The level of the current line. -/
  level : Nat := 0
  /-- The level before the current one. -/
  previous : Nat := 0
  page : Html.Page := {}
deriving Repr

namespace State

def unit (s : State) : Text := s.indentation.unit

def atEnd (s : State) : Bool := s.remaining.isEmpty

/-- Reads one line of the source, which ends at a line feed or with the source. -/
def nextLine? (s : State) : Option (Text × State) :=
  if s.atEnd then none
  else
    let line : Text := s.remaining.takeWhile (· != '\n')
    let rest := s.remaining.dropWhile (· != '\n')
    some (line, { s with
      remaining := rest.drop 1
      offset := s.offset + line.byteSize + Text.byteSize (rest.take 1)
      lineNumber := s.lineNumber + 1 })

theorem length_of_nextLine? {s s' : State} {line : Text} (h : s.nextLine? = some (line, s')) :
    s'.remaining.length < s.remaining.length := by
  unfold nextLine? at h
  split at h
  · simp at h
  · next hs =>
    obtain ⟨-, rfl⟩ := by simpa using h
    have hd := (List.dropWhile_suffix (l := s.remaining) (· != '\n')).length_le
    have := List.length_pos_iff.mpr (show s.remaining ≠ [] by simpa [atEnd] using hs)
    simp only [List.length_tail]
    omega

/-- Takes the level of the next line from its indentation. -/
def readLevel (s : State) : State :=
  let (level, indentation) := s.indentation.levelOf s.remaining
  { s with previous := s.level, level, indentation }

/-- Closes the tags that the current line is not nested in. -/
def closeTags (s : State) : State :=
  { s with page := s.page.closeFrom s.unit s.level }

def closeAll (s : State) : State :=
  { s with page := s.page.closeAll s.unit }

def writeVerbatim (s : State) (text : Text) : State :=
  { s with page := s.page.writeVerbatim s.unit s.level text }

def writeElement (s : State) (e : Element) : State :=
  { s with page := s.page.writeElement s.unit s.level e }

/-- Moves to the level inside the element written last. -/
def descend (s : State) : State :=
  { s with previous := s.level, level := s.level + 1 }

end State
end IndentMarkup.Compile
