import IndentMarkup.Json.Basic

/-! Writing JSON without blanks. Members stand in the order of the value. -/
namespace IndentMarkup.Json

/-- Quotes, backslashes and control characters are escaped, and nothing else. -/
def escape (c : Char) : Text :=
  if c = '"' then ['\\', '"']
  else if c = '\\' then ['\\', '\\']
  else if c = '\x08' then ['\\', 'b']
  else if c = '\t' then ['\\', 't']
  else if c = '\n' then ['\\', 'n']
  else if c = '\x0c' then ['\\', 'f']
  else if c = '\r' then ['\\', 'r']
  else if c.toNat < 0x20 then
    ['\\', 'u', '0', '0', Nat.digitChar (c.toNat / 16), Nat.digitChar (c.toNat % 16)]
  else [c]

def quote (t : Text) : Text :=
  '"' :: t.flatMap escape ++ ['"']

def writeInt (n : Int) : Text :=
  (if n < 0 then ['-'] else []) ++ Nat.toDigits 10 n.natAbs

def Number.write (n : Number) : Text :=
  (if n.negative then ['-'] else []) ++ Nat.toDigits 10 n.whole ++
    (if n.fraction.isEmpty then [] else '.' :: n.fraction.map fun d => Nat.digitChar d.val) ++
    match n.exponent with
    | none => []
    | some e => 'e' :: writeInt e

def Scalar.write : Scalar → Text
  | .null => "null".toList
  | .bool true => "true".toList
  | .bool false => "false".toList
  | .number n => n.write
  | .string (some t) => quote t
  | .string none => "\"\\ud800\"".toList

mutual

def write : Json → Text
  | .scalar s => s.write
  | .array items => '[' :: writeItems items ++ [']']
  | .object members => '\x7b' :: writeMembers members ++ ['\x7d']

def writeItems : List Json → Text
  | [] => []
  | [j] => j.write
  | j :: items => j.write ++ ',' :: writeItems items

def writeMembers : List (Option Text × Json) → Text
  | [] => []
  | [(key, j)] => (Scalar.string key).write ++ ':' :: j.write
  | (key, j) :: members =>
    (Scalar.string key).write ++ ':' :: j.write ++ ',' :: writeMembers members

end

end IndentMarkup.Json
