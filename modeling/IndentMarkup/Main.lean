import IndentMarkup.Command.Run

/-! The command itself, on the file system of the machine. -/
namespace IndentMarkup.Main

/-- Whether a call failed with an error number, which may come with a minus sign. -/
def isNumber (number expected : UInt32) : Bool :=
  number = expected || number = 0 - expected

/-- The error of a failed call. What is wrong with a path is told by the number. -/
def fileError (e : IO.Error) : FileError :=
  match e with
  | .noFileOrDirectory .. => .notFound
  | .noSuchThing .. => .notFound
  | .alreadyExists .. => .alreadyExists
  | .inappropriateType _ number _ =>
    if isNumber number 20 then .notDirectory else .isDirectory
  | .invalidArgument _ number _ =>
    if isNumber number 36 then .nameTooLong else .badName
  | e => .other e.toString.toList

def attempt {α : Type} (action : IO α) : IO (Except FileError α) := do
  try return .ok (← action)
  catch e => return .error (fileError e)

def kindOf (p : Path) : IO (Option FileKind) := do
  let place := (← IO.currentDir) / String.ofList p
  match ← attempt place.metadata with
  | .error _ => return none
  | .ok data =>
    match data.type with
    | .file => return some .file
    | .dir => return some .directory
    | _ => return none

/-- The plain files at or below a path. What cannot be looked at is left out. -/
partial def walk (p : Path) : IO (List Path) := do
  match ← kindOf p with
  | none => return []
  | some .file => return [p]
  | some .directory =>
    let place := (← IO.currentDir) / String.ofList p
    match ← attempt place.readDir with
    | .error _ => return []
    | .ok entries =>
      let below ← entries.toList.mapM fun entry => walk (p.join entry.fileName.toList)
      return below.flatten

instance : FileStore IO where
  kind? := kindOf
  readBytes p := attempt do return (← IO.FS.readBinFile (String.ofList p)).toList
  writeBytes p content := attempt (IO.FS.writeBinFile (String.ofList p) ⟨content.toArray⟩)
  makeDirectory p := attempt (IO.FS.createDir (String.ofList p))
  filesUnder := walk

def emit (p : Printed) : IO Unit := do
  IO.print (String.ofList p.stdout)
  IO.eprint (String.ofList p.stderr)

def report (r : Run) (milliseconds : Nat) : IO Unit := do
  for line in r.log do
    IO.eprintln (String.ofList line)
  emit (r.print milliseconds)

/-- The input files of a run and what they hold. -/
def snapshot (r : Run) : IO (List (Path × Option (List UInt8))) := do
  let files : List Path ← Run.inputFiles r.config r.arguments
  files.mapM fun p => do
    let content : Except FileError (List UInt8) ← FileStore.readBytes p
    return (p, content.toOption)

/-- Compiles again whenever an input file has changed. -/
partial def watch (r : Run) (before : List (Path × Option (List UInt8))) : IO Unit := do
  IO.sleep 500
  let now ← snapshot r
  if now != before then
    unless r.arguments.preserveWatchOutput do
      IO.print "\x1b[2J\x1b[1;1H"
    IO.eprintln "File change detected. Recompiling...\n"
    let begun ← IO.monoMsNow
    let again : Run ← Run.once r.config r.arguments
    report again ((← IO.monoMsNow) - begun)
  watch r now

end IndentMarkup.Main

open IndentMarkup in
def main (args : List String) : IO UInt32 := do
  let begun ← IO.monoMsNow
  let here := (← IO.currentDir).toString.toList
  let result : Except Refusal Run ← Run.start here (args.map String.toList)
  match result with
  | .error refusal =>
    Main.emit refusal.print
    return refusal.exitCode.toUInt32
  | .ok run =>
    if run.arguments.watch then
      IO.eprintln "Starting watch mode...\n"
    Main.report run ((← IO.monoMsNow) - begun)
    if run.arguments.watch then
      Main.watch run (← Main.snapshot run)
    return run.exitCode.toUInt32
