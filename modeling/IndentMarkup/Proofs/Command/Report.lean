import Mathlib.Data.List.Forall2
import Mathlib.Data.List.Induction
import IndentMarkup.Command.Report
import IndentMarkup.Proofs.Json.Records

/-! What is printed for a machine to read can be read back. -/
namespace IndentMarkup

/-- What a report says about a file that failed. -/
structure Finding where
  path : Path
  line : Nat
  code : Text
  message : Text
deriving DecidableEq, Repr

/-- Only a compile error has a line. -/
def FileReport.finding? (r : FileReport) : Option Finding :=
  match r.status with
  | .written _ | .compiled _ => none
  | .failed _ e => some ⟨r.path, e.line, e.code, e.message⟩
  | .unavailable message => some ⟨r.path, 0, "io".toList, message⟩

namespace Finding

/-- Takes the message off the end of a line, which is given backwards, and the colon in front of the
message. A colon of the message has a backslash in front of it. -/
def takeMessage (message : Text) : Text → Option (Text × Text)
  | [] => none
  | ':' :: '\\' :: before => takeMessage (':' :: message) before
  | ':' :: before => some (message, before)
  | c :: before => takeMessage (c :: message) before

/-- Takes the last field off a line that is given backwards, and the colon in front of it. -/
def takeField (before : Text) : Text × Text :=
  ((before.takeWhile (· != ':')).reverse, (before.dropWhile (· != ':')).tail)

/-- Reads a machine line from its end: the path may have colons of its own. -/
def ofLine? (line : Text) : Option Finding := do
  let (message, before) ← takeMessage [] line.reverse
  let (code, before) := takeField before
  let (digits, path) := takeField before
  return ⟨path.reverse, Nat.ofDigitChars 10 digits 0, code, message⟩

theorem takeMessage_escaped (message : Text) {before : Text} (hbefore : before.head? ≠ some '\\')
    (behind : Text) :
    takeMessage behind ((message.flatMap FileReport.escapeColon).reverse ++ ':' :: before) =
      some (message ++ behind, before) := by
  induction message using List.reverseRecOn generalizing behind with
  | nil =>
    rw [List.flatMap_nil, List.reverse_nil, List.nil_append, takeMessage]
    · rfl
    · rintro u rfl
      simp at hbefore
  | append_singleton message c ih =>
    by_cases hc : c = ':'
    · simp [hc, FileReport.escapeColon, takeMessage, ih]
    · simp [hc, FileReport.escapeColon, takeMessage, ih]

theorem takeField_append {field : Text} (h : ':' ∉ field) (before : Text) :
    takeField (field.reverse ++ ':' :: before) = (field, before) := by
  have hall : ∀ c ∈ field.reverse, (c != ':') = true := by
    intro c hc
    simp only [bne_iff_ne]
    rintro rfl
    exact h (List.mem_reverse.mp hc)
  rw [takeField, List.takeWhile_append_of_pos hall, List.dropWhile_append_of_pos hall]
  simp

theorem ofLine?_machineLine (path : Path) (line : Nat) {code : Text} (message : Text)
    (hcolon : ':' ∉ code) (hslash : '\\' ∉ code) :
    ofLine? (FileReport.machineLine path line code message) =
      some ⟨path, line, code, message⟩ := by
  have hback : (FileReport.machineLine path line code message).reverse =
      (message.flatMap FileReport.escapeColon).reverse ++ ':' ::
        (code.reverse ++ ':' :: ((decimal line).reverse ++ ':' :: path.reverse)) := by
    simp [FileReport.machineLine]
  have hhead : (code.reverse ++ ':' :: ((decimal line).reverse ++ ':' :: path.reverse)).head? ≠
      some '\\' := by
    intro h
    cases hc : code.reverse with
    | nil => simp [hc] at h
    | cons c t =>
      obtain rfl : c = '\\' := by simpa [hc] using h
      exact hslash (List.mem_reverse.mp (hc ▸ List.mem_cons_self))
  have hdigits : ':' ∉ decimal line := Json.notMem_toDigits rfl
  have hline : Nat.ofDigitChars 10 (decimal line) 0 = line := Nat.ofDigitChars_ten_toDigits
  rw [ofLine?, hback, takeMessage_escaped message hhead]
  simp [takeField_append hcolon, takeField_append hdigits, hline]

end Finding

/-- Neither a colon nor what would escape one stands in a code. -/
theorem CompileError.code_plain (e : CompileError) : ':' ∉ e.code ∧ '\\' ∉ e.code := by
  have hplain : e.code.all (fun c => c != ':' && c != '\\') = true := by
    cases e <;> rfl
  simp only [List.all_eq_true, Bool.and_eq_true, bne_iff_ne] at hplain
  exact ⟨fun h => (hplain _ h).1 rfl, fun h => (hplain _ h).2 rfl⟩

namespace FileReport

theorem machine?_bind_ofLine? (r : FileReport) : r.machine?.bind Finding.ofLine? = r.finding? := by
  unfold machine? finding?
  cases r.status with
  | written out => rfl
  | compiled html => rfl
  | failed source e =>
    exact Finding.ofLine?_machineLine r.path e.line e.message e.code_plain.1 e.code_plain.2
  | unavailable message =>
    exact Finding.ofLine?_machineLine r.path 0 message (by decide) (by decide)

theorem machine?_eq_map (r : FileReport) :
    r.machine? = r.finding?.map fun f => machineLine f.path f.line f.code f.message := by
  unfold machine? finding?
  cases r.status <;> rfl

/-- A machine line tells the path, the line, the code and the message of a report, and reports that
differ in one of them have different lines. -/
theorem machine_line_reads_back :
    (∀ r : FileReport, r.machine?.isSome = r.status.isError ∧
      r.machine?.bind Finding.ofLine? = r.finding?) ∧
      ∀ r r' : FileReport, r.machine? = r'.machine? ↔ r.finding? = r'.finding? := by
  refine ⟨fun r => ⟨?_, machine?_bind_ofLine? r⟩, fun r r' => ⟨fun h => ?_, fun h => ?_⟩⟩
  · unfold machine?
    cases r.status <;> rfl
  · rw [← machine?_bind_ofLine?, h, machine?_bind_ofLine?]
  · rw [machine?_eq_map, h, ← machine?_eq_map]

-- the path keeps its colons, and no backslash is escaped
example : Finding.ofLine? "C:\\:0:io:no\\\\: \\".toList =
    some ⟨"C:\\".toList, 0, "io".toList, "no\\: \\".toList⟩ := by decide

end FileReport

/-! Reports as JSON, one on each line. -/

/-- A line that is an object with these members, each of them once, and no others. -/
structure Json.LineOf (field? : String → Option Json) (line : Text) : Prop where
  unbroken : '\n' ∉ line
  members : ∃ members, read? line = some (.record members) ∧
    ∀ name : String, member? members name.toList = some (field? name)

theorem Json.lineOf_write_record {field? : String → Option Json} {members : List (Text × Json)}
    (h : ∀ name : String, member? members name.toList = some (field? name)) :
    LineOf field? (record members).write :=
  ⟨newline_notMem_write _, members, read?_write _, h⟩

/-- The member that a report has under a name. Only a compile error has a line. -/
def FileReport.field? (r : FileReport) : String → Option Json
  | "type" => some (.text (if r.status.isError then "error" else "compiled").toList)
  | "file" => some (.text r.path)
  | "output" => match r.status with
    | .written out => some (.text out)
    | _ => none
  | "html" => match r.status with
    | .compiled html => some (.text html)
    | _ => none
  | "code" => r.finding?.map (.text ·.code)
  | "line" => match r.status with
    | .failed _ e => some (.nat e.line)
    | _ => none
  | "message" => r.finding?.map (.text ·.message)
  | _ => none

/-- The member that a summary has under a name. -/
def Summary.field? (s : Summary) : String → Option Json
  | "type" => some (.text "summary".toList)
  | "files" => some (.nat s.files)
  | "errors" => some (.nat s.errors)
  | "duration_ms" => some (.nat s.milliseconds)
  | _ => none

theorem FileReport.lineOf_toJson (r : FileReport) : Json.LineOf r.field? r.toJson.write := by
  obtain ⟨path, status⟩ := r
  cases status
  all_goals
    refine Json.lineOf_write_record fun name => ?_
    unfold field?
    split
    iterate 7 rfl
    -- what is left is a name that no report uses
    refine Json.member?_of_notMem ?_
    simp only [List.map_cons, List.map_nil, List.mem_cons, List.not_mem_nil, String.toList_inj]
    tauto

theorem Summary.lineOf_toJson (s : Summary) : Json.LineOf s.field? s.toJson.write := by
  refine Json.lineOf_write_record fun name => ?_
  unfold field?
  split
  iterate 4 rfl
  refine Json.member?_of_notMem ?_
  simp only [List.map_cons, List.map_nil, List.mem_cons, List.not_mem_nil, String.toList_inj]
  tauto

@[simp] theorem Printed.stdout_append (a b : Printed) : (a ++ b).stdout = a.stdout ++ b.stdout :=
  rfl

theorem Printed.stdout_foldl {α : Type} (print : α → Printed) (l : List α) (printed : Printed) :
    (l.foldl (fun printed a => printed ++ print a) printed).stdout =
      printed.stdout ++ l.flatMap fun a => (print a).stdout := by
  induction l generalizing printed with
  | nil => simp
  | cons a l ih => rw [List.foldl_cons, ih, stdout_append, List.flatMap_cons, List.append_assoc]

/-- The JSON format prints one line for each report and one for the summary, and each of them is an
object with exactly the members of what it is printed for. -/
theorem json_lines_read_back (reports : List FileReport) (s : Summary) :
    ∃ lines last,
      (reports.foldl (fun printed r => printed ++ r.print .json) {} ++ s.print .json).stdout =
          (lines ++ [last]).flatMap (· ++ ['\n']) ∧
        List.Forall₂ (fun r line => Json.LineOf r.field? line) reports lines ∧
        Json.LineOf s.field? last := by
  refine ⟨reports.map (·.toJson.write), s.toJson.write, ?_, ?_, s.lineOf_toJson⟩
  · rw [Printed.stdout_append, Printed.stdout_foldl, List.flatMap_append, List.flatMap_map]
    simp [FileReport.print, Summary.print, Printed.out]
  · rw [List.forall₂_map_right_iff, List.forall₂_same]
    exact fun r _ => r.lineOf_toJson

end IndentMarkup
