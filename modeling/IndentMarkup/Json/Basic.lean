import IndentMarkup.Text.Blank

/-! JSON values. -/
namespace IndentMarkup

namespace Json

/-- A number as it is written, so that `1`, `1.0` and `1e0` differ. -/
structure Number where
  negative : Bool := false
  whole : Nat
  /-- The digits after the point; none of them if there is no point. -/
  fraction : List (Fin 10) := []
  exponent : Option Int := none
deriving DecidableEq, Repr

/-- A value without parts. -/
inductive Scalar
  | null
  | bool (b : Bool)
  | number (n : Number)
  /-- A string has no content if it names half of a surrogate pair without the other half. -/
  | string (content : Option Text)
deriving DecidableEq, Repr

end Json

/-- A JSON value. An object keeps its members in order, and may repeat a key. -/
inductive Json
  | scalar (s : Json.Scalar)
  | array (items : List Json)
  | object (members : List (Option Text × Json))
deriving Repr

namespace Json

def null : Json := .scalar .null

def bool (b : Bool) : Json := .scalar (.bool b)

def text (t : Text) : Json := .scalar (.string (some t))

def nat (n : Nat) : Json := .scalar (.number { whole := n })

/-- An object from its members, whose keys are all well formed. -/
def record (members : List (Text × Json)) : Json :=
  .object (members.map fun (key, value) => (some key, value))

end Json
end IndentMarkup
