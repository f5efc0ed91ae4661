import IndentMarkup.Command.Arguments
import IndentMarkup.Compile.Options
import IndentMarkup.Files.Pattern.Depth
import IndentMarkup.Files.Pattern.Match
import IndentMarkup.Files.Store
import IndentMarkup.Json.Comment
import IndentMarkup.Json.Form
import IndentMarkup.Text.Quoted

/-! The configuration of a run: the configuration file, and what the command line puts above it. -/
namespace IndentMarkup

/-- What a configuration file holds. -/
structure ConfigFile where
  compress : Option Bool := none
  token : Option Char := none
  /-- The extensions of markup files, with the dot. -/
  extensions : Option (List Text) := none
  /-- Patterns of files to leave out. -/
  exclude : List Text := []
  /-- Where HTML goes, relative to the workspace. -/
  outDir : Option Path := none
deriving DecidableEq, Repr

namespace ConfigFile
open Json

def fieldNames : List Text :=
  ["compress".toList, "embeddingToken".toList, "extensions".toList, "exclude".toList,
    "outDir".toList]

instance : Form ConfigFile where
  encode f := record [
    ("compress".toList, f.compress.elim null bool),
    ("embeddingToken".toList, f.token.elim null fun c => text [c]),
    ("extensions".toList, f.extensions.elim null texts),
    ("exclude".toList, texts f.exclude),
    ("outDir".toList, textOrNull f.outDir)]
  decode? j :=
    match fields? fieldNames j with
    | some [compress, token, extensions, exclude, outDir] => do
      let compress ← withDefault none (nullable? bool?) compress
      let token ← withDefault none (nullable? char?) token
      let extensions ← withDefault none (nullable? (list? text?)) extensions
      let exclude ← withDefault [] (list? text?) exclude
      let outDir ← withDefault none (nullable? text?) outDir
      return { compress, token, extensions, exclude, outDir }
    | _ => none

def fileName : Path := "wml.json".toList

/-- Reads a configuration file, in which comments are allowed. -/
def ofText? (t : Text) : Option ConfigFile :=
  parse? ConfigFile (stripComments t)

variable {m : Type → Type} [Monad m] [FileStore m]

def firstFile : List Path → m (Option Path)
  | [] => return none
  | p :: paths => do if ← FileStore.isFile p then return some p else firstFile paths

/-- The configuration file in a directory, or in the nearest one around it that has one. -/
def find (dir : Path) : m (Option Path) :=
  firstFile (dir.ancestors.map (·.join fileName))

end ConfigFile

inductive ConfigError
  | unreadable (path : Path)
  | malformed (path : Path)
  | badPattern (pattern : Text)
  /-- A pattern nests too deep. Those of general scope are numbered, the others stand alone. -/
  | deepPattern (number : Nat)
deriving DecidableEq, Repr

def ConfigError.message : ConfigError → Text
  | unreadable path => "Failed to read ".toList ++ path
  | malformed path => "Failed to parse ".toList ++ path
  | badPattern pattern => "Invalid exclude pattern ".toList ++ pattern.quoted
  | deepPattern number => "error parsing pattern ".toList ++ Nat.toDigits 10 number

structure Config where
  workspace : Path
  /-- The configuration file that was read. -/
  source : Option Path
  options : Options
  extensions : List Text
  /-- The patterns of files to leave out, as they are written. -/
  excludeTexts : List Text
  exclude : List Pattern
  /-- Where HTML goes; beside the markup if there is no such directory. -/
  outDir : Option Path

namespace Config

def defaultExtensions : List Text := [".wml".toList]

/-- Patterns that hold for every workspace. -/
def standardExclude : List Text := ["**/node_modules/**".toList, "**/.git/**".toList]

def parsePatterns : List Text → Except ConfigError (List Pattern)
  | [] => return []
  | t :: ts =>
    match Pattern.parse? t with
    | none => throw (.badPattern t)
    | some p => do return p :: (← parsePatterns ts)

/-- Refuses patterns that nest too deep. -/
def checkDepth (patterns : List Pattern) : Except ConfigError Unit :=
  let (general, others) := patterns.partition (·.scope = .general)
  if others.any (·.isTooDeep) then throw (.deepPattern 0)
  else match general.findIdx? (·.isTooDeep) with
    | some number => throw (.deepPattern number)
    | none => return

/-- Puts the command line above a configuration file. -/
def combine (workspace : Path) (args : Arguments) (source : Option Path) (file : ConfigFile) :
    Except ConfigError Config := do
  let excludeTexts := standardExclude ++ file.exclude ++ args.ignore
  let exclude ← parsePatterns excludeTexts
  checkDepth exclude
  return {
    workspace, source, excludeTexts, exclude
    options := {
      compress := args.compress || file.compress.getD false
      token := (args.token.or file.token).getD ({} : Options).token }
    extensions := file.extensions.getD defaultExtensions
    outDir := (args.outDir.or file.outDir).map workspace.join }

variable {m : Type → Type} [Monad m] [FileStore m]

/-- The configuration for a workspace: the file that the command line names, or the nearest one. -/
def load (workspace : Path) (args : Arguments) : m (Except ConfigError Config) := do
  let source ← match args.config with
    | some p => pure (some p)
    | none => ConfigFile.find workspace
  match source with
  | none => return combine workspace args none {}
  | some p =>
    match ← FileStore.readText p with
    | .error _ => return .error (.unreadable p)
    | .ok t =>
      match ConfigFile.ofText? t with
      | none => return .error (.malformed p)
      | some file => return combine workspace args (some p) file

def hasMarkupExtension (c : Config) (p : Path) : Bool :=
  c.extensions.contains (p.extension?.elim [] ('.' :: ·))

def isExcluded (c : Config) (p : Path) : Bool :=
  c.exclude.any (·.isMatch p)

/-- Whether a file of the workspace is compiled: its extension counts, and the patterns, which see
the path as it is and relative to the workspace. -/
def shouldProcess (c : Config) (p : Path) : Bool :=
  c.hasMarkupExtension p && !c.isExcluded p && !c.isExcluded ((p.relativeTo? c.workspace).getD p)

/-- Where the HTML of a markup file goes. -/
def outputPath (c : Config) (p : Path) : Path :=
  let html := p.withExtension "html".toList
  match c.outDir with
  | none => html
  | some dir =>
    match html.relativeTo? c.workspace with
    | some relative => dir.join relative
    | none => html.fileName?.elim html dir.join

end Config
end IndentMarkup
