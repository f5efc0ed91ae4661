import IndentMarkup.Json.Reader
import IndentMarkup.Json.Writer

/-! Values with a JSON form. A record is an object with its fields as members, or an array of the
fields in order. -/
namespace IndentMarkup.Json

/-- How a type is written as JSON and read back. -/
class Form (α : Type) where
  encode : α → Json
  decode? : Json → Option α

/-- Reads a value of a type from JSON text. -/
def parse? (α : Type) [Form α] (t : Text) : Option α := do
  Form.decode? (← read? t)

/-! Fields of a record. -/

def bool? : Json → Option Bool
  | .scalar (.bool b) => some b
  | _ => none

def text? : Json → Option Text
  | .scalar (.string content) => content
  | _ => none

def char? (j : Json) : Option Char :=
  match text? j with
  | some [c] => some c
  | _ => none

/-- A natural number below `bound`, written with digits only. -/
def natBelow? (bound : Nat) : Json → Option Nat
  | .scalar (.number ⟨false, n, [], none⟩) => if n < bound then some n else none
  | _ => none

def list? {α : Type} (item? : Json → Option α) : Json → Option (List α)
  | .array items => items.mapM item?
  | _ => none

def nullable? {α : Type} (value? : Json → Option α) : Json → Option (Option α)
  | .scalar .null => some none
  | j => (value? j).map some

/-- The member of that name: `some none` if there is none, and no result if there are several. -/
def member? (members : List (Text × Json)) (name : Text) : Option (Option Json) :=
  match members.filter fun m => m.1 == name with
  | [] => some none
  | [(_, j)] => some (some j)
  | _ => none

/-- The fields of a record by their names, each present or not. Members with other names are
ignored, as long as their names are well formed; an array may end early, and not go on after the
last field. -/
def fields? (names : List Text) : Json → Option (List (Option Json))
  | .object members => do
    let members ← members.mapM fun (key, j) => key.map (·, j)
    names.mapM (member? members)
  | .array items =>
    if items.length ≤ names.length then
      some (items.map some ++ List.replicate (names.length - items.length) none)
    else none
  | .scalar _ => none

/-- A field that must be present. -/
def needed {α : Type} (value? : Json → Option α) (field : Option Json) : Option α :=
  field.bind value?

/-- A field that has a default. -/
def withDefault {α : Type} (default : α) (value? : Json → Option α) (field : Option Json) :
    Option α :=
  match field with
  | none => some default
  | some j => value? j

def textOrNull (t : Option Text) : Json :=
  t.elim null text

def texts (ts : List Text) : Json :=
  .array (ts.map text)

end IndentMarkup.Json
