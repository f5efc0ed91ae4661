import IndentMarkup.Files.Pattern.Scope

/-! Matching of patterns, byte by byte and against whole paths. A row of marks, one for each place
in the path, the place at its end included, tells the places that the tokens so far may reach. -/
namespace IndentMarkup.Pattern

abbrev Row := List Bool

/-- The places right after a byte of the set. -/
def after (bytes : List UInt8) (holds : UInt8 → Bool) (row : Row) : Row :=
  false :: List.zipWith (fun mark b => mark && holds b) row bytes

/-- The places at or behind a marked one. -/
def spread (seen : Bool) : Row → Row
  | [] => []
  | mark :: row => (seen || mark) :: spread (seen || mark) row

def union (r s : Row) : Row :=
  List.zipWith (· || ·) r s

def afterSlash (bytes : List UInt8) (row : Row) : Row :=
  after bytes (· == 47) row

mutual

/-- The places that a token reaches from marked ones. Empty branches of a group do not count. -/
def Token.reach (bytes : List UInt8) (row : Row) : Token → Row
  | .literal c => (Text.utf8 [c]).foldl (fun row b => after bytes (· == b) row) row
  | .any => after bytes (fun _ => true) row
  | .star => spread false row
  | .leading => union row (afterSlash bytes (spread false row))
  | .trailing => spread false (afterSlash bytes row)
  | .between =>
    let below := afterSlash bytes row
    union below (afterSlash bytes (spread false below))
  | .byteIn set => after bytes set.contains row
  | .alternatives branches => if allVoid branches then row else reachAny bytes row branches

def reachAll (bytes : List UInt8) (row : Row) : List Token → Row
  | [] => row
  | t :: tokens => reachAll bytes (t.reach bytes row) tokens

def reachAny (bytes : List UInt8) (row : Row) : List (List Token) → Row
  | [] => row.map fun _ => false
  | b :: branches =>
    if branchVoid b then reachAny bytes row branches
    else union (reachAll bytes row b) (reachAny bytes row branches)

end

/-- Whether the tokens of the pattern, one after the other, spell the path. -/
def spells (p : Pattern) (path : Path) : Bool :=
  let bytes := Text.utf8 path
  (reachAll bytes (true :: bytes.map fun _ => false) p.tokens).getLast? = some true

/-- Whether the pattern matches the whole path. One that asks for a file name does not match where
there is none. -/
def isMatch (p : Pattern) (path : Path) : Bool :=
  (!p.scope.asksForName || hasName path) && p.spells path

end IndentMarkup.Pattern
