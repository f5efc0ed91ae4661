import IndentMarkup.Compile.State
import IndentMarkup.Text.Nesting

/-! Reading a line and writing what it stands for: a verbatim text, or a chain of elements of which
the last may carry inline content that goes on over further lines. -/
namespace IndentMarkup.Compile

/-- Joins the elements of a chain. -/
def chainMark : Text := ['\\', '-', '\\']

/-- The parts of a line between chain marks, without the empty ones at its end. -/
def chainParts (line : Text) : List Text :=
  match Text.pieces chainMark line with
  | [] => []
  | first :: others => first :: (others.reverse.dropWhile List.isEmpty).reverse

/-- An element of a chain up to its attributes, and the text after them. -/
def parseHead (line : Nat) (part : Text) : Except CompileError (Element × Text) := do
  let part := part.trim
  let selector := part.firstWord
  let (attributes, rest) ← Attribute.parse line (Text.trim (part.drop selector.length))
  return ({ selector := .ofText selector, attributes }, rest)

/-- The text inside the outer brackets of inline content. -/
def unwrap (content : Text) : Text :=
  Text.trim (content.trim.drop 1).dropLast

namespace State

/-- Adds lines to inline content until it leaves no bracket open. There is no content if the source
ends before. The state has read the lines in either case. -/
def foldLines (depth : Int) (content : Text) (s : State) : Option Text × State :=
  if depth ≤ 0 then (some content, s)
  else match _h : s.nextLine? with
    | none => (none, s)
    | some (line, next) =>
      foldLines (depth + line.trim.bracketLevel) (content ++ ' ' :: line.trim) next
termination_by s.remaining.length
decreasing_by exact length_of_nextLine? _h

/-- How the last element of a line ends, given the text after its attributes. -/
def readBody (s : State) (rest : Text) : Except CompileError Body × State :=
  if rest.head? = some '<' then
    let depth := rest.bracketLevel
    if depth < 0 then (.error (.unbalancedClosing s.lineNumber), s)
    else match s.foldLines depth rest with
      | (none, after) => (.error (.unmatchedOpening s.lineNumber), after)
      | (some content, after) => (.ok (.inline (unwrap content)), after)
  else if rest.head? = some '/' ∧ rest.getLast? = some '/' then (.ok .selfClosing, s)
  else (.ok .children, s)

/-- Writes the elements of a chain, each inside the one before. Text after the attributes counts
only for the last. An error leaves what was written before it. -/
def writeChain : List Text → State → Except CompileError Unit × State
  | [], s => (.ok (), s)
  | [last], s =>
    match parseHead s.lineNumber last with
    | .error e => (.error e, s)
    | .ok (element, rest) =>
      match s.readBody rest with
      | (.error e, after) => (.error e, after)
      | (.ok body, after) => (.ok (), after.writeElement { element with body })
  | part :: parts, s =>
    match parseHead s.lineNumber part with
    | .error e => (.error e, s)
    | .ok (element, _) => writeChain parts (s.writeElement element).descend

/-- Reads the next line and writes what it stands for. A blank line stands for nothing. -/
def processLine (s : State) : Except CompileError Unit × State :=
  match s.nextLine? with
  | none => (.ok (), s)
  | some (line, s) =>
    match line.trim with
    | [] => (.ok (), s)
    | c :: text =>
      if c = s.token then (.ok (), s.writeVerbatim text)
      else s.writeChain (chainParts (c :: text))

end State
end IndentMarkup.Compile
