import IndentMarkup.Compile.Error
import IndentMarkup.Json.Writer
import IndentMarkup.Source.LineIndex

/-! A compile error with the line of the source it points at. -/
namespace IndentMarkup

/-- A part of the source with a remark: its first byte, its size in bytes, and the remark. -/
structure Label where
  offset : Nat
  size : Nat
  remark : Text
deriving DecidableEq, Repr

structure Diagnostic where
  message : Text
  code : Text := "wml::compile".toList
  help : Text
  labels : List Label
deriving DecidableEq, Repr

namespace Diagnostic

/-- The diagnostic of an error. It labels the error's line, if the source has that line. -/
def ofError (source : Text) (e : CompileError) : Diagnostic where
  message := e.message
  help := e.help
  labels :=
    match (LineIndex.ofText source).lineSpan? e.line source with
    | none => []
    | some span => [⟨span.start.toNat, span.stop.toNat - span.start.toNat, e.code⟩]

def toJson (d : Diagnostic) : Json :=
  .record [
    ("code".toList, .text d.code),
    ("help".toList, .text d.help),
    ("labels".toList, .array (d.labels.map fun l =>
      .array [.nat l.offset, .nat l.size, .text l.remark])),
    ("message".toList, .text d.message)]

end Diagnostic
end IndentMarkup
