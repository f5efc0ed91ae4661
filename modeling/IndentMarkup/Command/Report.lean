import IndentMarkup.Command.Arguments
import IndentMarkup.Command.Diagnostic

/-! What a run says about each file and in the end, in the three output formats. -/
namespace IndentMarkup

/-- What became of a file. -/
inductive FileStatus
  /-- Its HTML was written to a file. -/
  | written (out : Path)
  /-- Its HTML goes to the standard output. -/
  | compiled (html : Text)
  | failed (source : Text) (error : CompileError)
  /-- It could not be read, or its HTML not be written. -/
  | unavailable (message : Text)
deriving DecidableEq, Repr

def FileStatus.isError : FileStatus → Bool
  | written _ | compiled _ => false
  | failed _ _ | unavailable _ => true

structure FileReport where
  path : Path
  status : FileStatus
deriving DecidableEq, Repr

structure Summary where
  files : Nat
  errors : Nat
  milliseconds : Nat
deriving DecidableEq, Repr

/-- What is printed on the two output streams. -/
structure Printed where
  stdout : Text := []
  stderr : Text := []
deriving DecidableEq, Repr

namespace Printed

instance : Append Printed where
  append a b := ⟨a.stdout ++ b.stdout, a.stderr ++ b.stderr⟩

def out (t : Text) : Printed := { stdout := t }

def err (t : Text) : Printed := { stderr := t }

end Printed

def decimal (n : Nat) : Text := Nat.toDigits 10 n

/-- Text in a colour of the terminal. -/
def coloured (colour : Text) (t : Text) : Text :=
  "\x1b[".toList ++ colour ++ 'm' :: t ++ "\x1b[0m".toList

def green (t : Text) : Text := coloured "32".toList t

def red (t : Text) : Text := coloured "31".toList t

/-- The ending of a noun that is counted. -/
def pluralEnding (n : Nat) : Text := if n = 1 then [] else ['s']

namespace FileReport

def human (r : FileReport) : Printed :=
  match r.status with
  | .written file =>
    .out (green "compiled".toList ++ ' ' :: r.path ++ " -> ".toList ++ file ++ ['\n'])
  | .compiled html => .out html
  | .failed source e => .err ((Diagnostic.ofError source e).toJson.write ++ ['\n'])
  | .unavailable message =>
    .err (red "error".toList ++ ": ".toList ++ r.path ++ ": ".toList ++ message ++ ['\n'])

def toJson (r : FileReport) : Json :=
  match r.status with
  | .written file => .record [
      ("file".toList, .text r.path), ("output".toList, .text file),
      ("type".toList, .text "compiled".toList)]
  | .compiled html => .record [
      ("file".toList, .text r.path), ("html".toList, .text html),
      ("type".toList, .text "compiled".toList)]
  | .failed _ e => .record [
      ("code".toList, .text e.code), ("file".toList, .text r.path), ("line".toList, .nat e.line),
      ("message".toList, .text e.message), ("type".toList, .text "error".toList)]
  | .unavailable message => .record [
      ("code".toList, .text "io".toList), ("file".toList, .text r.path),
      ("message".toList, .text message), ("type".toList, .text "error".toList)]

def escapeColon (c : Char) : Text := if c = ':' then ['\\', ':'] else [c]

/-- Path, line, code and message between colons. The colons of the message are escaped. -/
def machineLine (path : Path) (line : Nat) (code message : Text) : Text :=
  path ++ ':' :: decimal line ++ ':' :: code ++ ':' :: message.flatMap escapeColon

/-- One line for an error, and nothing for a file that compiles. -/
def machine? (r : FileReport) : Option Text :=
  match r.status with
  | .written _ | .compiled _ => none
  | .failed _ e => some (machineLine r.path e.line e.code e.message)
  | .unavailable message => some (machineLine r.path 0 "io".toList message)

def print (format : OutputFormat) (r : FileReport) : Printed :=
  match format with
  | .human => r.human
  | .json => .out (r.toJson.write ++ ['\n'])
  | .machine => .out (r.machine?.elim [] (· ++ ['\n']))

end FileReport

namespace Summary

def ofReports (reports : List FileReport) (milliseconds : Nat) : Summary where
  files := reports.length
  errors := reports.countP (·.status.isError)
  milliseconds

def human (s : Summary) : Text :=
  '\n' :: if s.errors = 0 then
    green ['✓'] ++ " Compiled ".toList ++ decimal s.files ++ " file".toList ++ pluralEnding s.files ++
      " (".toList ++ decimal s.milliseconds ++ "ms)\n".toList
  else
    red ['✗'] ++ " Found ".toList ++ decimal s.errors ++ " error".toList ++ pluralEnding s.errors ++
      " in ".toList ++ decimal s.files ++ " files\nTime: ".toList ++ decimal s.milliseconds ++
      "ms\n".toList

def toJson (s : Summary) : Json :=
  .record [
    ("duration_ms".toList, .nat s.milliseconds), ("errors".toList, .nat s.errors),
    ("files".toList, .nat s.files), ("type".toList, .text "summary".toList)]

def print (format : OutputFormat) (s : Summary) : Printed :=
  match format with
  | .human => .err s.human
  | .json => .out (s.toJson.write ++ ['\n'])
  | .machine => {}

end Summary
end IndentMarkup
