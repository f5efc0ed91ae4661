import Mathlib.Data.List.Infix
import IndentMarkup.Command.Run
import IndentMarkup.Proofs.Files.Tree

/-! What a run leaves alone. Each input file has its turn, whatever became of those before it, and
a turn changes no file but the output of a source that compiles. -/
namespace IndentMarkup.Run
open FileStore FileView

variable {σ : Type} [FileStore (StateM σ)] (config : Config) (args : Arguments)

/-- The source of a file can be read in a state, and compiles to HTML. -/
def Compiles (s : σ) (f : Path) (source html : Text) : Prop :=
  ((readText f : StateM σ _).run s).1 = .ok source ∧ compile config.options source = .ok html

/-- What can come of writing HTML to a file. -/
inductive Saved (out : Path) : FileStatus → Prop
  | written : Saved out (.written out)
  | noDirectory (e : FileError) : Saved out (.unavailable
      ("Failed to create ".toList ++ out.parent?.getD [] ++ ": ".toList ++ e.message))
  | unwritten (e : FileError) :
    Saved out (.unavailable ("Failed to write ".toList ++ out ++ ": ".toList ++ e.message))

/-- What a turn that starts in a state can say about a file. -/
inductive Outcome (s : σ) (f : Path) : FileStatus → Prop
  | unreadable (e : FileError) (h : ((readText f : StateM σ _).run s).1 = .error e) :
    Outcome s f (.unavailable ("Failed to read: ".toList ++ e.message))
  | failed (source : Text) (e : CompileError)
    (hr : ((readText f : StateM σ _).run s).1 = .ok source)
    (hc : compile config.options source = .error e) : Outcome s f (.failed source e)
  | printed (source html : Text) (h : Compiles config s f source html) (ho : args.stdout = true) :
    Outcome s f (.compiled html)
  | saved (source html : Text) (status : FileStatus) (h : Compiles config s f source html)
    (ho : args.stdout = false) (hs : Saved (config.outputPath f) status) : Outcome s f status

/-- The state that the turn of the `i`th file starts in. -/
def turnStart (files : List Path) (s : σ) (i : Nat) : σ :=
  (((files.take i).mapM (compileFile config args) : StateM σ _).run s).2

variable {config args} {V : FileView σ}

/-- A turn, by what becomes of reading the file and of compiling its source. -/
theorem run_compileFile (f : Path) (s : σ) :
    (compileFile config args f : StateM σ _).run s =
      match (readText f : StateM σ _).run s with
      | (.error e, after) => (⟨f, .unavailable ("Failed to read: ".toList ++ e.message)⟩, after)
      | (.ok source, after) =>
        match compile config.options source with
        | .error e => (⟨f, .failed source e⟩, after)
        | .ok html =>
          if args.stdout then (⟨f, .compiled html⟩, after)
          else ((writeHtml (config.outputPath f) html : StateM σ _).run after).map (⟨f, ·⟩) id := by
  rw [compileFile, run_bind_eq]
  generalize (readText f : StateM σ _).run s = reading
  obtain ⟨result, after⟩ := reading
  cases result with
  | error e => rfl
  | ok source =>
    dsimp only
    cases compile config.options source with
    | error e => rfl
    | ok html => by_cases ho : args.stdout <;> simp only [ho] <;> rfl

theorem run_writeHtml (out : Path) (html : Text) (s : σ) :
    (writeHtml out html : StateM σ _).run s =
      match (makeDirectories (out.parent?.getD []) : StateM σ _).run s with
      | (.error e, after) =>
        (.unavailable
          ("Failed to create ".toList ++ out.parent?.getD [] ++ ": ".toList ++ e.message), after)
      | (.ok (), after) =>
        match (writeBytes out html.utf8 : StateM σ _).run after with
        | (.error e, after) =>
          (.unavailable ("Failed to write ".toList ++ out ++ ": ".toList ++ e.message), after)
        | (.ok (), after) => (.written out, after) := by
  rw [writeHtml, run_bind_eq]
  generalize (makeDirectories (out.parent?.getD []) : StateM σ _).run s = making
  obtain ⟨made, after⟩ := making
  cases made with
  | error e => rfl
  | ok =>
    dsimp only
    rw [run_bind_eq]
    generalize (writeBytes out html.utf8 : StateM σ _).run after = writing
    obtain ⟨result, last⟩ := writing
    cases result <;> rfl

theorem saved_writeHtml (out : Path) (html : Text) (s : σ) :
    Saved out ((writeHtml out html : StateM σ _).run s).1 := by
  rw [run_writeHtml]
  split
  · exact .noDirectory _
  · split
    · exact .unwritten _
    · exact .written

theorem within_writeHtml (hV : V.Lawful) (out : Path) (html : Text) :
    Moves (V.Writes out) (writeHtml out html : StateM σ FileStatus) := by
  rw [writeHtml]
  refine Moves.bind Writes.trans ?_ fun made => ?_
  · exact (within_makeOutwards hV _).mono fun _ _ h => h.mono fun _ => False.elim
  · split
    · exact .pure Writes.refl _
    · refine Moves.bind Writes.trans (hV.writeBytes out html.utf8) fun result => ?_
      split <;> exact .pure Writes.refl _

/-- A turn changes files only where the output of its own source goes, and only once this has been
read and compiled. -/
theorem within_compileFile (hV : V.Lawful) (f : Path) (s : σ) :
    V.Within (fun l => args.stdout = false ∧ (∃ source html, Compiles config s f source html) ∧
      V.Names s (config.outputPath f) l) s
      ((compileFile config args f : StateM σ _).run s).2 := by
  have hread := same_readText hV f s
  rw [run_compileFile]
  split
  · next hr =>
    rw [hr] at hread
    exact hread.within
  · next source after hr =>
    rw [hr] at hread
    split
    · exact hread.within
    · next html hc =>
      split
      · exact hread.within
      · next ho =>
        have hcompiles : Compiles config s f source html := ⟨by rw [hr], hc⟩
        have hwrite := within_writeHtml hV (config.outputPath f) html after
        rw [Writes, hread.names] at hwrite
        exact hread.within.trans
          (hwrite.mono fun l hl => ⟨by simpa using ho, ⟨source, html, hcompiles⟩, hl⟩)

theorem same_compileFile (hV : V.Lawful) (ho : args.stdout = true) (f : Path) :
    Moves V.Same (compileFile config args f : StateM σ FileReport) := by
  intro s
  have hread := same_readText hV f s
  rw [run_compileFile]
  split
  · next hr =>
    rw [hr] at hread
    exact hread
  · next hr =>
    rw [hr] at hread
    split
    · exact hread
    · rw [if_pos ho]
      exact hread

theorem compileFile_report (config : Config) (args : Arguments) (f : Path) (s : σ) :
    ∃ status, ((compileFile config args f : StateM σ _).run s).1 = ⟨f, status⟩ ∧
      Outcome config args s f status := by
  rw [run_compileFile]
  split
  · next e after hr => exact ⟨_, rfl, .unreadable e (by rw [hr])⟩
  · next source after hr =>
    have hsource : ((readText f : StateM σ _).run s).1 = .ok source := by rw [hr]
    split
    · next e hc => exact ⟨_, rfl, .failed source e hsource hc⟩
    · next html hc =>
      split
      · next ho => exact ⟨_, rfl, .printed source html ⟨hsource, hc⟩ ho⟩
      · next ho =>
        have ho : args.stdout = false := by simpa using ho
        exact ⟨_, rfl, .saved source html _ ⟨hsource, hc⟩ ho (saved_writeHtml _ _ after)⟩

theorem turnStart_succ {files : List Path} {f : Path} {i : Nat} (s : σ) (hf : files[i]? = some f) :
    turnStart config args files s (i + 1) =
      ((compileFile config args f : StateM σ _).run (turnStart config args files s i)).2 := by
  rw [turnStart, List.take_add_one, hf, Option.toList_some, List.mapM_append]
  simp only [List.mapM_cons, List.mapM_nil]
  rfl

theorem length_reports (files : List Path) (s : σ) :
    ((files.mapM (compileFile config args) : StateM σ _).run s).1.length = files.length := by
  induction files generalizing s with
  | nil => rfl
  | cons f files ih => rw [run_mapM_cons, List.length_cons, ih, List.length_cons]

/-- The report on each file is the one that its turn ends with. -/
theorem getElem?_reports (files : List Path) (s : σ) (i : Nat) :
    ((files.mapM (compileFile config args) : StateM σ _).run s).1[i]? =
      files[i]?.map fun f =>
        ((compileFile config args f : StateM σ _).run (turnStart config args files s i)).1 := by
  induction files generalizing s i with
  | nil => rfl
  | cons f files ih =>
    cases i with
    | zero => rw [run_mapM_cons]; rfl
    | succ i =>
      have hturn : turnStart config args (f :: files) s (i + 1) =
          turnStart config args files ((compileFile config args f : StateM σ _).run s).2 i := by
        rw [turnStart, List.take_succ_cons, run_mapM_cons, turnStart]
      rw [run_mapM_cons, hturn]
      exact ih _ i

/-- What the turns up to some point have changed. -/
theorem within_turnStart (hV : V.Lawful) (config : Config) (args : Arguments) (files : List Path)
    (s : σ) (i : Nat) (hi : i ≤ files.length) :
    V.Within (fun l => ∃ j f source html, files[j]? = some f ∧ args.stdout = false ∧
      Compiles config (turnStart config args files s j) f source html ∧
      V.Names s (config.outputPath f) l) s (turnStart config args files s i) := by
  induction i with
  | zero => exact .refl s
  | succ i ih =>
    have hbefore := ih (by omega)
    have hf : files[i]? = some files[i] := List.getElem?_eq_getElem hi
    rw [turnStart_succ s hf]
    apply hbefore.trans
    apply (within_compileFile hV files[i] _).mono
    rintro l ⟨ho, ⟨source, html, hc⟩, hl⟩
    rw [hbefore.names] at hl
    exact ⟨i, files[i], source, html, hf, ho, hc, hl⟩

theorem same_inputFiles (hV : V.Lawful) :
    Moves V.Same (inputFiles config args : StateM σ (List Path)) := by
  rw [inputFiles]
  split
  · exact .bind .trans (hV.filesUnder _) fun _ => .pure .refl _
  · exact .pure .refl _

theorem same_mapM (hV : V.Lawful) (ho : args.stdout = true) (files : List Path) :
    Moves V.Same (files.mapM (compileFile config args) : StateM σ (List FileReport)) := by
  induction files with
  | nil => exact .pure .refl _
  | cons f files ih =>
    rw [List.mapM_cons]
    exact .bind .trans (same_compileFile hV ho f) fun _ => .bind .trans ih fun _ => .pure .refl _

theorem exitCode_eq (r : Run) (milliseconds : Nat) :
    r.exitCode = if (r.summary milliseconds).errors = 0 then 0 else 1 := by
  have hany : r.reports.any (·.status.isError) = true ↔ (r.summary milliseconds).errors ≠ 0 := by
    simp only [summary, Summary.ofReports, List.any_eq_true, ← Nat.pos_iff_ne_zero,
      List.countP_pos_iff]
  rw [exitCode]
  split <;> split <;> simp_all

/-- A run touches only what it compiled. Every input file has one report, in the order of the files,
and the report tells what came of reading, compiling and writing at the file's turn, whatever came
of the files before. A file holds something else after the run only if the output path of an input
names it whose source was read and compiled; if the HTML goes to the standard output, no entry
changes at all. The exit code is 0 if no report tells of an error, and 1 otherwise. -/
theorem once_touches_only_outputs (hV : V.Lawful) (config : Config) (args : Arguments) (s : σ)
    (milliseconds : Nat) :
    let input := (inputFiles config args : StateM σ _).run s
    let result := (once config args : StateM σ _).run s
    let turn := turnStart config args input.1 input.2
    result.1.reports.length = input.1.length ∧
    (∀ i f, input.1[i]? = some f → ∃ status,
      result.1.reports[i]? = some ⟨f, status⟩ ∧ Outcome config args (turn i) f status) ∧
    (∀ l, V.content result.2 l ≠ V.content s l → ∃ i f source html, input.1[i]? = some f ∧
      args.stdout = false ∧ Compiles config (turn i) f source html ∧
      V.Names s (config.outputPath f) l) ∧
    (args.stdout = true → V.entry result.2 = V.entry s) ∧
    (result.1.summary milliseconds).errors = result.1.reports.countP (·.status.isError) ∧
    result.1.exitCode = if (result.1.summary milliseconds).errors = 0 then 0 else 1 := by
  intro input result turn
  have hinput : V.Same s input.2 := same_inputFiles hV s
  have hreports (i : Nat) : result.1.reports[i]? = input.1[i]?.map fun f =>
      ((compileFile config args f : StateM σ _).run (turn i)).1 := getElem?_reports _ _ i
  have hafter : result.2 = turn input.1.length := by
    simp only [turn, turnStart, List.take_length]
    rfl
  refine ⟨?_, ?_, ?_, ?_, rfl, exitCode_eq _ _⟩
  · exact length_reports _ _
  · intro i f hf
    obtain ⟨status, hstatus, houtcome⟩ := compileFile_report config args f (turn i)
    refine ⟨status, ?_, houtcome⟩
    rw [hreports, hf, Option.map_some, hstatus]
  · intro l hl
    have hruns := within_turnStart hV config args input.1 input.2 input.1.length (Nat.le_refl _)
    rw [hafter] at hl
    exact (hinput.within.trans (hinput.names ▸ hruns)).content l hl
  · intro ho
    exact (hinput.trans (same_mapM hV ho input.1 input.2)).entry

/-- Neither a source that does not compile nor a missing one keeps the last one from its output. -/
theorem once_touches_only_outputs_third :
    let files : List Path := ["bad.wml".toList, "missing.wml".toList, "a.wml".toList]
    let t : FileTree := {
      entries := [(["bad.wml".toList], .file (Text.utf8 "p x=\x7b\x7b".toList)),
        (["a.wml".toList], .file (Text.utf8 ['b']))] }
    let config : Config := {
      workspace := [], source := none, options := {}, extensions := Config.defaultExtensions,
      excludeTexts := [], exclude := [], outDir := none }
    let result := (once config { files } : StateM FileTree _).run t
    result.1.reports.map (·.status.isError) = [true, true, false] ∧ result.1.exitCode = 1 ∧
    result.2.get? ["a.html".toList] = some (.file (Text.utf8 "<b>\n</b>\n".toList)) ∧
    ∀ l, FileTree.view.content result.2 l ≠ FileTree.view.content t l → l = ["a.html".toList] := by
  intro files t config result
  have hreports : result.1.reports.map (·.status.isError) = [true, true, false] := by
    decide +kernel
  obtain ⟨-, -, hcontent, -, herrors, hexit⟩ :=
    once_touches_only_outputs FileTree.lawful_view config { files } t 0
  have hbad : ((readText "bad.wml".toList : StateM FileTree _).run
      (turnStart config { files } files t 0)).1 = .ok "p x=\x7b\x7b".toList := by decide +kernel
  have hfails : compile config.options "p x=\x7b\x7b".toList =
      .error (.unclosedPlaceholder .braces 1) := by decide +kernel
  have hmissing : ((readText "missing.wml".toList : StateM FileTree _).run
      (turnStart config { files } files t 1)).1 = .error .notFound := by decide +kernel
  refine ⟨hreports, ?_, by decide +kernel, ?_⟩
  · rw [hexit, herrors]
    decide +kernel
  · intro l hl
    obtain ⟨i, f, source, html, hf, -, ⟨hread, hcompile⟩, hl⟩ := hcontent l hl
    match i with
    | 0 =>
      cases hf
      cases hbad.symm.trans hread
      cases hfails.symm.trans hcompile
    | 1 =>
      cases hf
      cases hmissing.symm.trans hread
    | 2 =>
      cases hf
      exact hl
    | i + 3 => cases hf

end IndentMarkup.Run
