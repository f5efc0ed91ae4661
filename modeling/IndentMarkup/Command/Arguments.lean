import IndentMarkup.Files.Path
import IndentMarkup.Text.Search

/-! The command line: options with a value, flags, and files. -/
namespace IndentMarkup

/-- How a run reports. -/
inductive OutputFormat
  | human
  | json
  | machine
deriving DecidableEq, Repr

structure Arguments where
  /-- The files to compile; all of the workspace if there are none. -/
  files : List Path := []
  workspace : Option Path := none
  config : Option Path := none
  outDir : Option Path := none
  token : Option Char := none
  output : OutputFormat := .human
  /-- Patterns of files to leave out. -/
  ignore : List Text := []
  compress : Bool := false
  stdout : Bool := false
  watch : Bool := false
  timings : Bool := false
  verbose : Bool := false
  preserveWatchOutput : Bool := false
deriving DecidableEq, Repr

/-- Options without a value. -/
inductive Flag
  | compress
  | stdout
  | watch
  | timings
  | verbose
  | preserveWatchOutput
  | help
  | version
deriving DecidableEq, Repr

/-- Options with a value. -/
inductive Setting
  | workspace
  | config
  | outDir
  | token
  | output
  | ignore
deriving DecidableEq, Repr

/-- Why a command line is not carried out as a run. -/
inductive UsageError
  | unknownOption (name : Text)
  | missingValue (option : Setting)
  | invalidValue (value : Text)
  | notOneCharacter (value : Text)
  | unexpectedValue (flag : Flag)
  | repeatedFlag (flag : Flag)
  | repeatedSetting (option : Setting)
  | helpRequested
  | versionRequested
deriving DecidableEq, Repr

namespace Arguments

/-- The least level of the messages that are logged. -/
def logLevel (a : Arguments) : Text :=
  if a.verbose then "info".toList else "warn".toList

inductive Switch
  | flag (f : Flag)
  | setting (o : Setting)
deriving DecidableEq, Repr

def longNames : List (Text × Switch) :=
  [("workspace".toList, .setting .workspace), ("config".toList, .setting .config),
    ("out-dir".toList, .setting .outDir), ("embedding-token".toList, .setting .token),
    ("output".toList, .setting .output), ("ignore".toList, .setting .ignore),
    ("compress".toList, .flag .compress), ("stdout".toList, .flag .stdout),
    ("watch".toList, .flag .watch), ("timings".toList, .flag .timings),
    ("verbose".toList, .flag .verbose),
    ("preserve-watch-output".toList, .flag .preserveWatchOutput),
    ("help".toList, .flag .help), ("version".toList, .flag .version)]

def shortNames : List (Char × Switch) :=
  [('C', .setting .workspace), ('c', .setting .config), ('o', .setting .outDir),
    ('w', .flag .watch), ('v', .flag .verbose), ('h', .flag .help), ('V', .flag .version)]

/-- Values that are read and not checked yet. They are checked when the next option or file begins,
so an unknown option right behind them is reported first. -/
inductive Pending
  | nothing
  | awaiting (o : Setting)
  | holding (o : Setting) (value : Text)
  | files (paths : List Path)

/-- Where reading the command line stands. -/
structure Scan where
  arguments : Arguments := {}
  /-- The options given so far. -/
  seen : List Switch := []
  pending : Pending := .nothing
  /-- Whether only files may follow. -/
  filesOnly : Bool := false

namespace Scan

def checkPath (value : Text) : Except UsageError Path :=
  if value.isEmpty then .error (.invalidValue value) else .ok value

def checkFormat (value : Text) : Except UsageError OutputFormat :=
  if value = "human".toList then .ok .human
  else if value = "json".toList then .ok .json
  else if value = "machine".toList then .ok .machine
  else .error (.invalidValue value)

def checkChar (value : Text) : Except UsageError Char :=
  match value with
  | [c] => .ok c
  | _ => .error (.notOneCharacter value)

def setting (a : Arguments) (value : Text) : Setting → Except UsageError Arguments
  | .workspace => do return { a with workspace := some (← checkPath value) }
  | .config => do return { a with config := some (← checkPath value) }
  | .outDir => do return { a with outDir := some (← checkPath value) }
  | .token => do return { a with token := some (← checkChar value) }
  | .output => do return { a with output := ← checkFormat value }
  | .ignore => return { a with ignore := a.ignore ++ [value] }

/-- Takes the value of an option. Only the patterns to ignore may be given more than once. -/
def set (s : Scan) (o : Setting) (value : Text) : Except UsageError Scan := do
  if o ≠ .ignore ∧ .setting o ∈ s.seen then throw (.repeatedSetting o)
  return { s with
    arguments := ← setting s.arguments value o
    seen := .setting o :: s.seen
    pending := .nothing }

/-- Checks the values that are pending. -/
def settle (s : Scan) : Except UsageError Scan :=
  match s.pending with
  | .nothing => return s
  | .awaiting o => throw (.missingValue o)
  | .holding o value => s.set o value
  | .files paths => do
    let paths ← paths.mapM checkPath
    return { s with
      arguments := { s.arguments with files := s.arguments.files ++ paths }
      pending := .nothing }

def flag (s : Scan) (f : Flag) : Except UsageError Scan := do
  let s ← s.settle
  if .flag f ∈ s.seen then throw (.repeatedFlag f)
  let a := s.arguments
  let arguments ← match f with
    | .compress => pure { a with compress := true }
    | .stdout => pure { a with stdout := true }
    | .watch => pure { a with watch := true }
    | .timings => pure { a with timings := true }
    | .verbose => pure { a with verbose := true }
    | .preserveWatchOutput => pure { a with preserveWatchOutput := true }
    | .help => throw .helpRequested
    | .version => throw .versionRequested
  return { s with arguments, seen := .flag f :: s.seen }

/-- An option whose value, if it is not attached, comes next. -/
def option (s : Scan) (o : Setting) (attached : Option Text) : Except UsageError Scan := do
  let s ← s.settle
  match attached with
  | some value => s.set o value
  | none => return { s with pending := .awaiting o }

def file (s : Scan) (p : Path) : Except UsageError Scan := do
  match s.pending with
  | .files paths => return { s with pending := .files (paths ++ [p]) }
  | _ => return { ← s.settle with pending := .files [p] }

/-- An option by its long name, with or without a value behind an equals sign. -/
def long (s : Scan) (t : Text) : Except UsageError Scan :=
  let (name, attached) := match Text.cut? ['='] t with
    | some (name, value) => (name, some value)
    | none => (t, none)
  match longNames.lookup name, attached with
  | none, _ => throw (.unknownOption t)
  | some (.flag f), some _ => throw (.unexpectedValue f)
  | some (.flag f), none => s.flag f
  | some (.setting o), attached => s.option o attached

/-- Options by their letters. One with a value takes the rest of the letters. -/
def letters (s : Scan) : Text → Except UsageError Scan
  | [] => return s
  | c :: t =>
    match shortNames.lookup c with
    | none => throw (.unknownOption [c])
    | some (.flag f) => do (← s.flag f).letters t
    | some (.setting o) =>
      s.option o <| match t with
        | [] => none
        | '=' :: value => some value
        | value => some value

/-- Takes the next argument. -/
def argument (s : Scan) (t : Text) : Except UsageError Scan :=
  if s.filesOnly then s.file t
  else match t with
    | ['-', '-'] => return { s with filesOnly := true }
    | '-' :: '-' :: name => s.long name
    | '-' :: c :: rest => s.letters (c :: rest)
    | _ =>
      match s.pending with
      | .awaiting o => return { s with pending := .holding o t }
      | _ => s.file t

end Scan

/-- Reads a command line, without the program's name. The first fault counts. -/
def parse (args : List Text) : Except UsageError Arguments := do
  let s ← args.foldlM Scan.argument {}
  return (← s.settle).arguments

end Arguments
end IndentMarkup
