import Mathlib.Data.List.Infix
import IndentMarkup.Compile.Session

/-! Sessions over any calls. A session holds what the calls gave last, answers each compilation from
that alone, and shows the HTML of the last one that succeeded. -/
namespace IndentMarkup.Session

/-- A call that may change a session. -/
inductive Call
  | setText (text : Text)
  | setCompress (compress : Bool)
  | setToken (token : Char)
  | compile (text : Option Text) (compress : Option Bool)

namespace Call

/-- The text that a call gives, if it does. -/
def text? : Call → Option Text
  | setText text => some text
  | compile text _ => text
  | _ => none

def compress? : Call → Option Bool
  | setCompress compress => some compress
  | compile _ compress => compress
  | _ => none

def token? : Call → Option Char
  | setToken token => some token
  | _ => none

end Call

def perform (s : Session) : Call → Session
  | .setText text => s.setText text
  | .setCompress compress => s.setCompress compress
  | .setToken token => s.setToken token
  | .compile text compress => (s.compile text compress).2

/-- The value that some calls gave last, or the one before them if they gave none. -/
def latest {α : Type} (given : Call → Option α) (start : α) (calls : List Call) : α :=
  (calls.filterMap given).getLastD start

def latestOptions (start : Options) (calls : List Call) : Options where
  compress := latest Call.compress? start.compress calls
  token := latest Call.token? start.token calls

/-- The answer to the last of some calls, if it asks to compile: the text that was given last,
compiled with the options that were given last. -/
def answer? (text : Text) (options : Options) (calls : List Call) :
    Option (Except CompileError Text) :=
  match calls.getLast? with
  | some (.compile _ _) =>
    some (IndentMarkup.compile (latestOptions options calls) (latest Call.text? text calls))
  | _ => none

/-- The HTML of all compilations among some calls that succeed, in order. -/
def successes (text : Text) (options : Options) (calls : List Call) : List Text :=
  calls.inits.filterMap fun front => (answer? text options front).bind Except.toOption

theorem latest_concat {α : Type} (given : Call → Option α) (start : α) (calls : List Call)
    (call : Call) :
    latest given start (calls ++ [call]) = (given call).getD (latest given start calls) := by
  unfold latest
  cases hg : given call with
  | none => simp [hg]
  | some a => simp [hg]

theorem latestOptions_compile (start : Options) (calls : List Call) (text : Option Text)
    (compress : Option Bool) :
    latestOptions start (calls ++ [.compile text compress]) =
      { latestOptions start calls with
        compress := compress.getD (latestOptions start calls).compress } := by
  unfold latestOptions
  rw [latest_concat, latest_concat]
  rfl

theorem successes_concat (text : Text) (options : Options) (calls : List Call) (call : Call) :
    successes text options (calls ++ [call]) = successes text options calls ++
      ((answer? text options (calls ++ [call])).bind Except.toOption).toList := by
  have hinits : (calls ++ [call]).inits = calls.inits ++ [calls ++ [call]] := by
    simp [List.inits_append]
  unfold successes
  rw [hinits, List.filterMap_append]
  cases h : (answer? text options (calls ++ [call])).bind Except.toOption <;> simp [h]

/-- A compilation stores what it is given, and its HTML if there is one. -/
theorem compile_eq (s : Session) (text : Option Text) (compress : Option Bool) :
    let options := { s.options with compress := compress.getD s.options.compress }
    let answer := IndentMarkup.compile options (text.getD s.text)
    s.compile text compress =
      (answer, ⟨text.getD s.text, options, answer.toOption.getD s.output⟩) := by
  intro options answer
  have hstored : compress.elim (text.elim s s.setText) (text.elim s s.setText).setCompress =
      ⟨text.getD s.text, options, s.output⟩ := by
    cases text <;> cases compress <;> rfl
  unfold Session.compile
  simp only [hstored]
  cases h : answer with
  | error e => simp [answer, h, Except.toOption]
  | ok html => simp [answer, h, Except.toOption]

section Fields

variable (s : Session) (call : Call)

theorem text_perform : (s.perform call).text = call.text?.getD s.text := by
  cases call with
  | compile text compress => rw [perform, compile_eq]; rfl
  | _ => rfl

theorem compress_perform :
    (s.perform call).options.compress = call.compress?.getD s.options.compress := by
  cases call with
  | compile text compress => rw [perform, compile_eq]; rfl
  | _ => rfl

theorem token_perform : (s.perform call).options.token = call.token?.getD s.options.token := by
  cases call with
  | compile text compress => rw [perform, compile_eq]; rfl
  | _ => rfl

end Fields

/-- A field that each call sets to what it gives, and leaves alone otherwise, holds what was given
last. -/
theorem foldl_eq_latest {α : Type} (field : Session → α) (given : Call → Option α)
    (h : ∀ s call, field (s.perform call) = (given call).getD (field s)) (s : Session)
    (calls : List Call) : field (calls.foldl perform s) = latest given (field s) calls := by
  induction calls using List.reverseRecOn with
  | nil => rfl
  | append_singleton calls call ih => rw [List.foldl_concat, h, ih, latest_concat]

section Start

variable (text : Text) (options : Options) (calls : List Call)

theorem text_foldl :
    (calls.foldl perform { text, options }).text = latest Call.text? text calls :=
  foldl_eq_latest Session.text Call.text? text_perform _ calls

theorem options_foldl :
    (calls.foldl perform { text, options }).options = latestOptions options calls := by
  have hc := foldl_eq_latest (·.options.compress) Call.compress? compress_perform
    { text, options } calls
  have ht := foldl_eq_latest (·.options.token) Call.token? token_perform { text, options } calls
  rw [latestOptions, ← hc, ← ht]

/-- A compilation is answered from what was given last, its own arguments included. -/
theorem compile_foldl (t : Option Text) (c : Option Bool) :
    let stored := latestOptions options (calls ++ [.compile t c])
    let answer := IndentMarkup.compile stored (latest Call.text? text (calls ++ [.compile t c]))
    (calls.foldl perform { text, options }).compile t c =
      (answer, ⟨latest Call.text? text (calls ++ [.compile t c]), stored,
        answer.toOption.getD (calls.foldl perform { text, options }).output⟩) := by
  intro stored answer
  have htext : t.getD (latest Call.text? text calls) =
      latest Call.text? text (calls ++ [.compile t c]) :=
    (latest_concat Call.text? text calls (.compile t c)).symm
  rw [compile_eq, text_foldl, options_foldl, ← latestOptions_compile, htext]

theorem output_foldl :
    (calls.foldl perform { text, options }).output =
      (successes text options calls).getLastD [] := by
  induction calls using List.reverseRecOn with
  | nil => rfl
  | append_singleton calls call ih =>
    rw [List.foldl_concat, successes_concat]
    cases call with
    | compile t c =>
      have hanswer : answer? text options (calls ++ [.compile t c]) =
          some (IndentMarkup.compile (latestOptions options (calls ++ [.compile t c]))
            (latest Call.text? text (calls ++ [.compile t c]))) := by
        simp [answer?]
      rw [perform, compile_foldl, hanswer, Option.bind_some, ih]
      cases (IndentMarkup.compile (latestOptions options (calls ++ [.compile t c]))
        (latest Call.text? text (calls ++ [.compile t c]))).toOption with
      | none => simp
      | some html => simp
    | _ => simpa [perform, setText, setCompress, setToken, answer?] using ih

end Start

/-- A session that starts with any text and options holds, after any calls, the text and options that
were given last, by a failing compilation too. It answers each compilation as if nothing had been
compiled before, and its output is the HTML of the last compilation that succeeded, if any. -/
theorem session_follows_calls (text : Text) (options : Options) (calls : List Call) :
    let s := calls.foldl perform { text, options }
    s.text = latest Call.text? text calls ∧ s.options = latestOptions options calls ∧
    (∀ t c, (s.compile t c).1 =
      IndentMarkup.compile (latestOptions options (calls ++ [.compile t c]))
        (latest Call.text? text (calls ++ [.compile t c]))) ∧
    s.output = (successes text options calls).getLastD [] :=
  ⟨text_foldl text options calls, options_foldl text options calls,
    fun t c => congrArg Prod.fst (compile_foldl text options calls t c),
    output_foldl text options calls⟩

/-- The second compilation fails, and still stores its text and layout. -/
example :
    let calls : List Call :=
      [.compile (some "b".toList) none, .compile (some "p <".toList) (some true), .setToken '|']
    successes [] {} calls = ["<b>\n</b>\n".toList] ∧ latest Call.text? [] calls = "p <".toList ∧
      latestOptions {} calls = ⟨true, '|'⟩ := by
  decide +kernel

end IndentMarkup.Session
