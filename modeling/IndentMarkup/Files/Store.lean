import IndentMarkup.Files.Path
import IndentMarkup.Text.Bytes

/-! What a run needs of a file system. -/
namespace IndentMarkup

/-- Why a file operation fails. -/
inductive FileError
  | notFound
  | alreadyExists
  | notDirectory
  | isDirectory
  /-- A name on the way, or the whole path, is longer than allowed. -/
  | nameTooLong
  /-- The path holds a character that no name can. -/
  | badName
  /-- The content is not UTF-8. -/
  | notText
  | other (message : Text)
deriving DecidableEq, Repr

def FileError.message : FileError → Text
  | notFound => "No such file or directory (os error 2)".toList
  | alreadyExists => "File exists (os error 17)".toList
  | notDirectory => "Not a directory (os error 20)".toList
  | isDirectory => "Is a directory (os error 21)".toList
  | nameTooLong => "File name too long (os error 36)".toList
  | badName => "file name contained an unexpected NUL byte".toList
  | notText => "stream did not contain valid UTF-8".toList
  | other message => message

inductive FileKind
  | file
  | directory
deriving DecidableEq, Repr

/-- A file system with its operations, run in `m`. -/
class FileStore (m : Type → Type) where
  /-- What is at a path, if anything. -/
  kind? : Path → m (Option FileKind)
  readBytes : Path → m (Except FileError (List UInt8))
  writeBytes : Path → List UInt8 → m (Except FileError Unit)
  /-- Makes one directory, in one that exists. -/
  makeDirectory : Path → m (Except FileError Unit)
  /-- The paths of the plain files at or below a path, in any order. -/
  filesUnder : Path → m (List Path)

namespace FileStore

variable {m : Type → Type} [Monad m] [FileStore m]

def isFile (p : Path) : m Bool := do
  return (← kind? p) = some .file

def isDirectory (p : Path) : m Bool := do
  return (← kind? p) = some .directory

def readText (p : Path) : m (Except FileError Text) := do
  match ← readBytes p with
  | .error e => return .error e
  | .ok bytes => return (Text.ofUtf8? bytes).elim (.error .notText) .ok

/-- Makes the first of the directories, if need be after making the one behind it in the list, in
which it stands. -/
def makeOutwards : List Path → m (Except FileError Unit)
  | [] => return .error .notFound
  | p :: outer => do
    if p.isEmpty then return .ok ()
    match ← makeDirectory p with
    | .ok () => return .ok ()
    | .error .notFound =>
      match ← makeOutwards outer with
      | .error e => return .error e
      | .ok () =>
        match ← makeDirectory p with
        | .ok () => return .ok ()
        | .error e => return if ← isDirectory p then .ok () else .error e
    | .error e => return if ← isDirectory p then .ok () else .error e

/-- Makes a directory and those it stands in, as far as they are missing. -/
def makeDirectories (p : Path) : m (Except FileError Unit) :=
  makeOutwards p.ancestors

end FileStore
end IndentMarkup
