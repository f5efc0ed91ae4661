import IndentMarkup.Compile.Options
import IndentMarkup.Html.Page
import IndentMarkup.Json.Form
import IndentMarkup.Source.LineIndex

/-! The JSON forms of what a compilation takes and makes. -/
namespace IndentMarkup
open Json

instance : Form Options where
  encode o := record [("compress".toList, bool o.compress),
    ("embeddingToken".toList, text [o.token])]
  decode? j :=
    match fields? ["compress".toList, "embeddingToken".toList] j with
    | some [compress, token] => do
      let compress ← withDefault ({} : Options).compress bool? compress
      let token ← withDefault ({} : Options).token char? token
      return { compress, token }
    | _ => none

instance : Form Selector where
  encode s := record [("tag".toList, text s.tag), ("id".toList, textOrNull s.id),
    ("classes".toList, texts s.classes)]
  decode? j :=
    match fields? ["tag".toList, "id".toList, "classes".toList] j with
    | some [tag, id, classes] => do
      let tag ← needed text? tag
      let id ← withDefault none (nullable? text?) id
      let classes ← needed (list? text?) classes
      return { tag, id, classes }
    | _ => none

instance : Form Attribute where
  encode a := record [("name".toList, text a.name), ("value".toList, text a.value)]
  decode? j :=
    match fields? ["name".toList, "value".toList] j with
    | some [name, value] => do
      let name ← needed text? name
      let value ← needed text? value
      return { name, value }
    | _ => none

instance : Form Html.OpenTag where
  encode t := record [("level".toList, nat t.level), ("tag".toList, text t.tag)]
  decode? j :=
    match fields? ["level".toList, "tag".toList] j with
    | some [level, tag] => do
      let level ← needed (natBelow? UInt64.size) level
      let tag ← needed text? tag
      return { level, tag }
    | _ => none

instance : Form Span where
  encode s := record [("start".toList, nat s.start.toNat), ("end".toList, nat s.stop.toNat)]
  decode? j :=
    match fields? ["start".toList, "end".toList] j with
    | some [start, stop] => do
      let start ← needed (natBelow? UInt32.size) start
      let stop ← needed (natBelow? UInt32.size) stop
      return { start := start.toUInt32, stop := stop.toUInt32 }
    | _ => none

end IndentMarkup
