import IndentMarkup.Command.Config
import IndentMarkup.Command.Report
import IndentMarkup.Compile.Run

/-! A run of the command: which files are compiled, what becomes of them, and what is printed. -/
namespace IndentMarkup

/-- A run that came to its end. -/
structure Run where
  arguments : Arguments
  config : Config
  reports : List FileReport

/-- Why there was no run. -/
inductive Refusal
  | usage (e : UsageError)
  | config (e : ConfigError)

namespace Run

variable {m : Type → Type} [Monad m] [FileStore m]

/-- The files named on the command line, in that order, or the markup files of the workspace,
sorted. -/
def inputFiles (config : Config) (args : Arguments) : m (List Path) := do
  if args.files.isEmpty then
    let files ← FileStore.filesUnder config.workspace
    return (files.filter config.shouldProcess).mergeSort Path.precedes
  else return args.files

/-- Writes HTML to a file, and makes the directories it needs. -/
def writeHtml (out : Path) (html : Text) : m FileStatus := do
  let dir := out.parent?.getD []
  match ← FileStore.makeDirectories dir with
  | .error e =>
    return .unavailable ("Failed to create ".toList ++ dir ++ ": ".toList ++ e.message)
  | .ok () =>
    match ← FileStore.writeBytes out html.utf8 with
    | .error e => return .unavailable ("Failed to write ".toList ++ out ++ ": ".toList ++ e.message)
    | .ok () => return .written out

def compileFile (config : Config) (args : Arguments) (p : Path) : m FileReport := do
  match ← FileStore.readText p with
  | .error e => return ⟨p, .unavailable ("Failed to read: ".toList ++ e.message)⟩
  | .ok source =>
    match compile config.options source with
    | .error e => return ⟨p, .failed source e⟩
    | .ok html =>
      if args.stdout then return ⟨p, .compiled html⟩
      else return ⟨p, ← writeHtml (config.outputPath p) html⟩

/-- Compiles the input files, one after the other. -/
def once (config : Config) (args : Arguments) : m Run := do
  let files ← inputFiles config args
  return ⟨args, config, ← files.mapM (compileFile config args)⟩

/-- Carries out a command line in a current directory, which is the workspace if none is named. -/
def start (currentDirectory : Path) (args : List Text) : m (Except Refusal Run) := do
  match Arguments.parse args with
  | .error e => return .error (.usage e)
  | .ok args =>
    match ← Config.load (args.workspace.getD currentDirectory) args with
    | .error e => return .error (.config e)
    | .ok config => return .ok (← once config args)

def summary (r : Run) (milliseconds : Nat) : Summary :=
  .ofReports r.reports milliseconds

/-- The reports, the time if it was asked for, and a summary unless the HTML is printed. -/
def print (r : Run) (milliseconds : Nat) : Printed :=
  let format := r.arguments.output
  let reports := r.reports.foldl (fun printed report => printed ++ report.print format) {}
  let timing : Printed :=
    if r.arguments.timings then .err ("\nTiming: ".toList ++ decimal milliseconds ++ "ms\n".toList)
    else {}
  let summary : Printed :=
    if r.arguments.stdout then {} else (r.summary milliseconds).print format
  reports ++ timing ++ summary

/-- What a verbose run logs. -/
def log (r : Run) : List Text :=
  if r.arguments.verbose then
    (r.config.source.map ("using config ".toList ++ ·)).toList ++
      ["found ".toList ++ decimal r.reports.length ++ " markup files".toList]
  else []

def exitCode (r : Run) : Nat :=
  if r.reports.any (·.status.isError) then 1 else 0

end Run

namespace UsageError

def versionText : Text := "wml 0.1.0\n".toList

/-- What is printed for a command line that starts no run. -/
def helpText : Text :=
  ("Usage: wml [OPTIONS] [FILES]...\n\n" ++
    "Compiles markup files, or every markup file of the workspace, to HTML.\n\n" ++
    "Options:\n" ++
    "  -C, --workspace <DIR>         directory to search\n" ++
    "  -c, --config <FILE>           configuration file\n" ++
    "  -o, --out-dir <DIR>           directory for the HTML\n" ++
    "      --compress                no blanks between tags\n" ++
    "      --embedding-token <CHAR>  first character of verbatim lines\n" ++
    "      --stdout                  print the HTML\n" ++
    "  -w, --watch                   compile again when files change\n" ++
    "      --output <FORMAT>         human, json or machine\n" ++
    "      --timings                 show the time taken\n" ++
    "      --ignore <PATTERN>        files to leave out\n" ++
    "  -v, --verbose                 log what is done\n" ++
    "      --preserve-watch-output   keep the screen when watching\n" ++
    "  -h, --help                    this text\n" ++
    "  -V, --version                 the version\n").toList

def message : UsageError → Text
  | unknownOption name => "unexpected argument ".toList ++ name.quoted
  | missingValue _ => "an option lacks its value".toList
  | invalidValue value => "invalid value ".toList ++ value.quoted
  | notOneCharacter value => "not one character: ".toList ++ value.quoted
  | unexpectedValue _ => "an option without a value has one".toList
  | repeatedFlag _ | repeatedSetting _ => "an option is given more than once".toList
  | helpRequested => helpText
  | versionRequested => versionText

/-- Asking for help or the version is no fault. -/
def exitCode : UsageError → Nat
  | helpRequested | versionRequested => 0
  | _ => 2

end UsageError

namespace Refusal

def exitCode : Refusal → Nat
  | usage e => e.exitCode
  | config _ => 1

def print : Refusal → Printed
  | usage e =>
    if e.exitCode = 0 then .out e.message else .err ("error: ".toList ++ e.message ++ ['\n'])
  | config e => .err ("error: ".toList ++ e.message ++ ['\n'])

end Refusal
end IndentMarkup
