import IndentMarkup.Text.Blank

/-! File paths. A path is kept as it is spelled, and compared by its components. -/
namespace IndentMarkup

/-- A path is a text with slashes between its parts. -/
abbrev Path := Text

namespace Path

inductive Component
  | root
  | current
  | parent
  | name (n : Text)
deriving DecidableEq, Repr, Ord

def isAbsolute (p : Path) : Bool :=
  p.head? = some '/'

/-- The texts between the slashes. -/
def parts : Path → List Text
  | [] => [[]]
  | c :: p =>
    if c = '/' then [] :: parts p
    else match parts p with
      | [] => [[c]]
      | part :: others => (c :: part) :: others

/-- Empty parts and single dots say nothing. -/
def partComponent? (part : Text) : Option Component :=
  if part.isEmpty ∨ part = ['.'] then none
  else if part = ['.', '.'] then some .parent
  else some (.name part)

def bodyComponents (p : Path) : List Component :=
  p.parts.filterMap partComponent?

/-- The components of a path. A single dot counts only at the start. -/
def components : Path → List Component
  | '/' :: p => .root :: bodyComponents p
  | ['.'] => [.current]
  | '.' :: '/' :: p => .current :: bodyComponents p
  | p => bodyComponents p

/-- Paths are ordered by their components, one after the other. -/
def precedes (p q : Path) : Bool :=
  (compare p.components q.components).isLE

/-- Drops slashes and single dots up to the next part that counts. -/
def skipFront : Path → Path
  | '/' :: p => skipFront p
  | '.' :: '/' :: p => skipFront p
  | ['.'] => []
  | p => p

/-- The same on a reversed path, in which a single dot that is all there is stays. -/
def skipBack : Path → Path
  | '/' :: p => skipBack p
  | '.' :: '/' :: p => skipBack p
  | p => p

/-- The path without the slashes and single dots at its end, and empty for the root. -/
def dropTail (p : Path) : Path :=
  (skipBack p.reverse).reverse

/-- The path without the slashes and single dots at its end. -/
def trimTail (p : Path) : Path :=
  if (dropTail p).isEmpty && p.isAbsolute then ['/'] else dropTail p

/-- The text after the last slash. -/
def lastPart (p : Path) : Text :=
  (p.reverse.takeWhile (· != '/')).reverse

/-- For a path that ends in a name with slashes behind it, as only a directory can, the path up to
that name. -/
def aboveDirectory? (p : Path) : Option Path :=
  let q := (p.reverse.dropWhile (· = '/')).reverse
  let name := lastPart q
  match partComponent? name with
  | some (.name _) => if q = p then none else some (q.take (q.length - name.length))
  | _ => none

/-- The path up to its file name, and the file name. A path that ends in dots or is only a root has
none. -/
def splitName? (p : Path) : Option (Path × Text) :=
  let q := p.dropTail
  let name := lastPart q
  match partComponent? name with
  | some (.name n) => some (q.take (q.length - name.length), n)
  | _ => none

def fileName? (p : Path) : Option Text :=
  p.splitName?.map (·.2)

/-- A file name cut at its last dot. A dot at the front starts no extension. -/
def splitExtension (name : Text) : Text × Option Text :=
  let after := (name.reverse.takeWhile (· != '.')).reverse
  let before := name.take (name.length - after.length - 1)
  if after.length = name.length ∨ before.isEmpty then (name, none) else (before, some after)

def extension? (p : Path) : Option Text := do
  (splitExtension (← p.fileName?)).2

/-- The path with an extension in place of its own. As many characters as its own extension has are
cut off the end first; if what is left has no file name, it stays as it is. Nothing after the file
name is kept. -/
def withExtension (p : Path) (extension : Text) : Path :=
  let q : Path := p.take (p.length - (p.extension?.getD []).length)
  match q.splitName? with
  | none => q
  | some (dir, name) => dir ++ (splitExtension name).1 ++ '.' :: extension

/-- The path without its last component. -/
def parent? (p : Path) : Option Path :=
  let q := p.dropTail
  if q.isEmpty then none else some (trimTail (q.take (q.length - (lastPart q).length)))

/-- At most `n` steps outwards from a path. -/
def ancestorsWithin : Nat → Path → List Path
  | 0, p => [p]
  | n + 1, p => p :: (p.parent?.map (ancestorsWithin n)).getD []

/-- The path, its parent, and so on outwards. -/
def ancestors (p : Path) : List Path :=
  ancestorsWithin p.length p

/-- A path below another. An absolute one stands for itself. -/
def join (base p : Path) : Path :=
  if p.isAbsolute then p
  else if base.isEmpty || base.getLast? = some '/' then base ++ p
  else base ++ '/' :: p

/-- Drops `n` components from a path that does not start with a root or a single dot. -/
def dropBody : Nat → Path → Path
  | 0, p => skipFront p
  | n + 1, p => dropBody n ((skipFront p).dropWhile (· != '/'))

/-- What is left of a path after its first `n` components. -/
def dropComponents (n : Nat) (p : Path) : Path :=
  match n, p with
  | 0, p => trimTail p
  | n + 1, '/' :: p => dropTail (dropBody n p)
  | n + 1, ['.'] => dropTail (dropBody n [])
  | n + 1, '.' :: '/' :: p => dropTail (dropBody n p)
  | n + 1, p => dropTail (dropBody (n + 1) p)

/-- The path relative to a base, if the base's components come first in it. -/
def relativeTo? (p base : Path) : Option Path :=
  if base.components.isPrefixOf p.components then some (dropComponents base.components.length p)
  else none

end Path
end IndentMarkup
