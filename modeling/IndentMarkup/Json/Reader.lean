import IndentMarkup.Json.Token

/-! Reading JSON, strictly by its grammar: no comments, no trailing commas, nothing after the value.
-/
namespace IndentMarkup.Json

/-- What is left after something was read from the front of `ts`. -/
abbrev Rest (ts : List Token) := { rest : List Token // rest.length < ts.length }

mutual

/-- Reads a value. -/
def readValue (ts : List Token) : Option (Json × Rest ts) :=
  match ts with
  | .scalar s :: rest => some (.scalar s, ⟨rest, Nat.lt_succ_self _⟩)
  | .arrayStart :: .arrayEnd :: rest =>
    some (.array [], ⟨rest, Nat.lt_succ_of_lt (Nat.lt_succ_self _)⟩)
  | .arrayStart :: ts => do
    let (items, ⟨rest, h⟩) ← readItems ts
    return (.array items, ⟨rest, Nat.lt_succ_of_lt h⟩)
  | .objectStart :: .objectEnd :: rest =>
    some (.object [], ⟨rest, Nat.lt_succ_of_lt (Nat.lt_succ_self _)⟩)
  | .objectStart :: ts => do
    let (members, ⟨rest, h⟩) ← readMembers ts
    return (.object members, ⟨rest, Nat.lt_succ_of_lt h⟩)
  | _ => none
termination_by (ts.length, 0)
decreasing_by
  · exact Prod.Lex.left _ _ (Nat.lt_succ_self _)
  · exact Prod.Lex.left _ _ (Nat.lt_succ_self _)

/-- Reads the items of an array and its closing bracket. -/
def readItems (ts : List Token) : Option (List Json × Rest ts) := do
  match ← readValue ts with
  | (j, ⟨.arrayEnd :: rest, h⟩) => return ([j], ⟨rest, by grind⟩)
  | (j, ⟨.comma :: ts', h⟩) =>
    let (items, ⟨rest, h'⟩) ← readItems ts'
    return (j :: items, ⟨rest, by grind⟩)
  | _ => none
termination_by (ts.length, 1)
decreasing_by
  · exact Prod.Lex.right _ (by omega)
  · exact Prod.Lex.left _ _ (by grind)

/-- Reads the members of an object and its closing brace. -/
def readMembers (ts : List Token) : Option (List (Option Text × Json) × Rest ts) :=
  match ts with
  | .scalar (.string key) :: .colon :: ts => do
    match ← readValue ts with
    | (j, ⟨.objectEnd :: rest, h⟩) => return ([(key, j)], ⟨rest, by grind⟩)
    | (j, ⟨.comma :: ts', h⟩) =>
      let (members, ⟨rest, h'⟩) ← readMembers ts'
      return ((key, j) :: members, ⟨rest, by grind⟩)
    | _ => none
  | _ => none
termination_by (ts.length, 0)
decreasing_by
  · exact Prod.Lex.left _ _ (by grind)
  · exact Prod.Lex.left _ _ (by grind)

end

/-- The value that a text denotes. -/
def read? (t : Text) : Option Json := do
  match ← readValue (← tokens t) with
  | (j, ⟨[], _⟩) => return j
  | _ => none

end IndentMarkup.Json
