import IndentMarkup.Files.Store

/-! A file system as a value: a tree of directories and plain files, and a current directory. -/
namespace IndentMarkup

/-- A place in the tree: the names on the way from the root. -/
abbrev Location := List Text

inductive FileEntry
  | file (content : List UInt8)
  | directory
deriving DecidableEq, Repr

def FileEntry.kind : FileEntry → FileKind
  | file _ => .file
  | directory => .directory

/-- What is at each location, the root apart, which is always a directory. -/
structure FileTree where
  entries : List (Location × FileEntry) := []
  current : Location := []
deriving Repr

namespace FileTree

def get? (t : FileTree) (l : Location) : Option FileEntry :=
  if l.isEmpty then some .directory else t.entries.lookup l

def put (t : FileTree) (l : Location) (e : FileEntry) : FileTree :=
  { t with entries := (l, e) :: t.entries.filter fun x => x.1 != l }

/-- The longest name of an entry, in bytes. -/
def maxName : Nat := 255

/-- The longest path, in bytes. -/
def maxPath : Nat := 4095

/-- One step from a location, which has to be a directory. -/
def enter (t : FileTree) (l : Location) (part : Text) : Except FileError Location :=
  match t.get? l with
  | none => .error .notFound
  | some (.file _) => .error .notDirectory
  | some .directory =>
    match Path.partComponent? part with
    | some (.name n) =>
      if maxName < (Text.utf8 n).length then .error .nameTooLong else .ok (l ++ [n])
    | some .parent => .ok l.dropLast
    | _ => .ok l

/-- Refuses paths that cannot name anything. -/
def checkPath (p : Path) : Except FileError Unit :=
  if p.contains '\x00' then .error .badName
  else if p.isEmpty then .error .notFound
  else if maxPath < (Text.utf8 p).length then .error .nameTooLong
  else .ok ()

/-- The location that a path leads to, through directories only. There may be nothing yet. -/
def locate (t : FileTree) (p : Path) : Except FileError Location := do
  checkPath p
  p.parts.foldlM t.enter (if p.isAbsolute then [] else t.current)

/-- The location of a file to be written. A path with a slash at its end names none, which shows as
soon as the directory is reached in which the last name would stand. -/
def locateFile (t : FileTree) (p : Path) : Except FileError Location :=
  match p.aboveDirectory? with
  | none => t.locate p
  | some dir => do
    checkPath p
    let _ ← t.locate (dir ++ ['.'])
    throw .isDirectory

def read (t : FileTree) (p : Path) : Except FileError (List UInt8) := do
  match t.get? (← t.locate p) with
  | none => throw .notFound
  | some .directory => throw .isDirectory
  | some (.file content) => return content

def write (t : FileTree) (p : Path) (content : List UInt8) : Except FileError FileTree := do
  let l ← t.locateFile p
  match t.get? l with
  | some .directory => throw .isDirectory
  | _ => return t.put l (.file content)

def makeDirectory (t : FileTree) (p : Path) : Except FileError FileTree := do
  let l ← t.locate p
  match t.get? l with
  | some _ => throw .alreadyExists
  | none => return t.put l .directory

/-- The plain files at or below a path, as paths that start with it. -/
def filesUnder (t : FileTree) (p : Path) : List Path :=
  match t.locate p with
  | .error _ => []
  | .ok l =>
    t.entries.filterMap fun (place, entry) =>
      match entry with
      | .directory => none
      | .file _ =>
        if place = l then some p
        else if l.isPrefixOf place then some (p.join (['/'].intercalate (place.drop l.length)))
        else none

/-- Puts an entry into the tree, and makes directories on the way to it. -/
def insert (t : FileTree) (l : Location) (e : FileEntry) : FileTree :=
  let ways := (List.range l.length).drop 1 |>.map l.take
  (ways.foldl (fun t way => if (t.get? way).isSome then t else t.put way .directory) t).put l e

/-- The plain files that are not in an earlier tree, or not with the same content. -/
def changedFiles (before after : FileTree) : List (Location × List UInt8) :=
  after.entries.filterMap fun (l, e) =>
    match e with
    | .directory => none
    | .file content => if before.get? l = some e then none else some (l, content)

instance : FileStore (StateM FileTree) where
  kind? p := do
    let t ← get
    return (t.locate p).toOption.bind fun l => (t.get? l).map FileEntry.kind
  readBytes p := do
    return (← get).read p
  writeBytes p content := do
    match (← get).write p content with
    | .error e => return .error e
    | .ok t => set t; return .ok ()
  makeDirectory p := do
    match (← get).makeDirectory p with
    | .error e => return .error e
    | .ok t => set t; return .ok ()
  filesUnder p := do
    return (← get).filesUnder p

end FileTree
end IndentMarkup
