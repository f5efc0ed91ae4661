import IndentMarkup.Files.Pattern

/-! Which part of a path a pattern asks for. A path that ends in two dots has no file name, and the
patterns that ask for one leave it alone. -/
namespace IndentMarkup.Pattern

/-- What has to be known of a path to tell whether a pattern may match it. -/
inductive Scope
  /-- The file name, which the pattern spells out. -/
  | fileName
  /-- The extension of the file name, the last dot included. -/
  | extension
  /-- The whole path, its start or its end, which the pattern spells out. -/
  | spelled
  /-- Anything else. -/
  | general
deriving DecidableEq, Repr

def Scope.asksForName (s : Scope) : Bool :=
  s = .fileName || s = .extension

/-- Whether a path has a file name, be it an empty one. -/
def hasName (path : Path) : Bool :=
  path.lastPart != ['.', '.']

/-- The text of a sequence of literals. -/
def literals? : List Token → Option Text
  | [] => some []
  | .literal c :: tokens => (literals? tokens).map (c :: ·)
  | _ :: _ => none

/-- The literals at the front of a sequence. -/
def leadingLiterals : List Token → Text
  | .literal c :: tokens => c :: leadingLiterals tokens
  | _ => []

def dropLeading : List Token → List Token
  | .leading :: tokens => tokens
  | tokens => tokens

/-- Any directories, and a name. -/
def spellsName : List Token → Bool
  | .leading :: tokens => (literals? tokens).any fun t => !t.isEmpty && !t.contains '/'
  | _ => false

def spellsPath (tokens : List Token) : Bool :=
  (literals? tokens).any fun t => !t.isEmpty

/-- Anything, and an extension. -/
def spellsExtension (tokens : List Token) : Bool :=
  match dropLeading tokens with
  | .star :: .literal '.' :: rest =>
    (literals? rest).any fun t => !t.contains '.' && !t.contains '/'
  | _ => false

/-- A text, and anything behind it or below it. -/
def spellsStart (tokens : List Token) : Bool :=
  match tokens.getLast?, literals? tokens.dropLast with
  | some .star, some t => !t.isEmpty
  | some .trailing, some _ => true
  | _, _ => false

/-- Anything, and a text that is more than a slash. -/
def spellsEnd (tokens : List Token) : Bool :=
  match dropLeading tokens with
  | .star :: rest => (literals? rest).any fun t => !t.isEmpty && t != ['/']
  | rest => (literals? rest).any fun t => !t.isEmpty

/-- Whether a sequence ends in literals from the dot of an extension on. -/
def endsInExtension (tokens : List Token) : Bool :=
  let back := leadingLiterals tokens.reverse
  let letters := back.takeWhile (· != '.')
  letters.length < back.length && !letters.contains '/'

def scope (p : Pattern) : Scope :=
  if spellsName p.tokens then .fileName
  else if spellsPath p.tokens then .spelled
  else if spellsExtension p.tokens then .extension
  else if spellsStart p.tokens || spellsEnd p.tokens then .spelled
  else if endsInExtension p.tokens then .extension
  else .general

end IndentMarkup.Pattern
