import IndentMarkup.Proofs.Command.Frame
import IndentMarkup.Proofs.Files.Directories

/-! The order in which input files have their turns. It does not matter as long as no file's output
gets into the way of another file. -/
namespace IndentMarkup

namespace FileTree
open FileStore Location

variable {t t' u u' : FileTree} {l : Location} {p out : Path}

/-- The text of a file. -/
def text (t : FileTree) (p : Path) : Except FileError Text :=
  (t.read p).bind fun bytes => (Text.ofUtf8? bytes).elim (.error .notText) .ok

theorem run_readText (p : Path) (t : FileTree) :
    (readText p : StateM FileTree _).run t = (t.text p, t) := by
  have hread : (FileStore.readBytes p : StateM FileTree _).run t = (t.read p, t) := rfl
  unfold readText text
  rw [StateT.run_bind, hread]
  dsimp only [bind, Id.run]
  cases t.read p <;> rfl

/-- What changes from one tree to the next changes alike between two other trees: only on the way to
a file, at the file itself or where a directory is made. -/
structure Repeats (out : Path) (t t' u u' : FileTree) : Prop where
  current : t'.current = t.current ∧ u'.current = u.current
  get? : ∀ m, u'.get? m = if t'.get? m = t.get? m then u.get? m else t'.get? m
  changed : ∀ m, t'.get? m ≠ t.get? m →
    m = target t.current out ∧ t.get? m ≠ some .directory ∨
    m ∈ way t.current out ∧ t.get? m = none ∧ t'.get? m = some .directory

theorem Repeats.refl (out : Path) (t u : FileTree) : Repeats out t t u u :=
  ⟨⟨rfl, rfl⟩, fun _ => (if_pos rfl).symm, fun _ h => absurd rfl h⟩

theorem repeats_of_adds {added : List Location} (h : Extends (way t.current out) t u)
    (hsub : added ⊆ way t.current out) (ht : Adds added t t') (hu : Adds added u u') :
    Repeats out t t' u u' := by
  refine ⟨⟨ht.current, hu.current⟩, fun m => ?_, fun m hm => ?_⟩
  · have htm := ht.get? m
    have hum := hu.get? m
    have hext (hm : m ∈ added) := h.get? m (hsub hm)
    grind
  · have htm := ht.get? m
    right
    grind

theorem Repeats.put (h : Repeats out t t' u u') (htarget : l = target t.current out)
    (hfile : t.get? l ≠ some .directory) (hsame : u.get? l = t.get? l) (e : FileEntry) :
    Repeats out t (t'.put l e) u (u'.put l e) := by
  have hl := ne_root_of_get? hfile
  refine ⟨h.current, fun m => ?_, fun m hm => ?_⟩
  · have hm := h.get? m
    rw [get?_put hl, get?_put hl]
    grind
  · rw [get?_put hl] at hm ⊢
    have := h.changed m
    grind

end FileTree

namespace Run
open FileStore FileTree Location

variable {config : Config} {args : Arguments} {t u : FileTree} {p q : Path}

theorem exists_writeHtml {out : Path} (hcurrent : t.get? t.current = some .directory)
    (h : Alike out t u) (html : Text) :
    ∃ status t' u', (writeHtml out html : StateM FileTree _).run t = (status, t') ∧
      (writeHtml out html : StateM FileTree _).run u = (status, u') ∧ Repeats out t t' u u' := by
  obtain ⟨result, t₁, u₁, added, ht, hu, hsub, haddst, haddsu, hagree⟩ :=
    exists_makeDirectories_parent hcurrent h
  have hmade := repeats_of_adds h.wider hsub haddst haddsu
  simp only [run_writeHtml, ht, hu]
  cases result with
  | error e => exact ⟨_, t₁, u₁, rfl, rfl, hmade⟩
  | ok =>
    have hagree := hagree rfl
    rw [← haddst.current] at hagree
    dsimp only
    rw [run_writeBytes, run_writeBytes]
    obtain ⟨e, het, heu⟩ | ⟨hfile, hwt, hwu⟩ := hagree.write html.utf8
    · rw [het, heu]
      exact ⟨_, t₁, u₁, rfl, rfl, hmade⟩
    · rw [hwt, hwu]
      rw [haddst.current] at hfile ⊢
      have hfile : t.get? (target t.current out) ≠ some .directory := by
        have := haddst.get? (target t.current out)
        grind
      exact ⟨_, _, _, rfl, rfl, hmade.put rfl hfile h.file _⟩

variable (config args t) in
/-- The HTML of a file is to be written: its source can be read, and compiles. -/
def Saves (p : Path) : Prop :=
  args.stdout = false ∧ ∃ source html, Compiles config t p source html

/-- The turn of a file says the same in trees that agree where it is read, and differ on the way to
its output in directories at most. What it changes in one it changes in the other. -/
theorem exists_compileFile (hcurrent : t.get? t.current = some .directory)
    (hread : Agree (way t.current q) t u)
    (hsaves : Saves config args t q → Alike (config.outputPath q) t u) :
    ∃ report t' u', (compileFile config args q : StateM FileTree _).run t = (report, t') ∧
      (compileFile config args q : StateM FileTree _).run u = (report, u') ∧
      Repeats (config.outputPath q) t t' u u' ∧ (Saves config args t q ∨ t' = t) := by
  have hsame := Repeats.refl (config.outputPath q) t u
  have htext : u.text q = t.text q := by rw [text, text, hread.read]
  rw [run_compileFile, run_compileFile, run_readText, run_readText, htext]
  cases hr : t.text q with
  | error e => exact ⟨_, t, u, rfl, rfl, hsame, .inr rfl⟩
  | ok source =>
    dsimp only
    cases hc : compile config.options source with
    | error e => exact ⟨_, t, u, rfl, rfl, hsame, .inr rfl⟩
    | ok html =>
      cases ho : args.stdout with
      | true => exact ⟨_, t, u, rfl, rfl, hsame, .inr rfl⟩
      | false =>
        have hsaved : Saves config args t q := ⟨ho, source, html, by rw [run_readText, hr], hc⟩
        obtain ⟨status, t', u', ht, hu, hrepeats⟩ :=
          exists_writeHtml hcurrent (hsaves hsaved) html
        simp only [ht, hu]
        exact ⟨_, t', u', rfl, rfl, hrepeats, .inl hsaved⟩

variable (config args t) in
/-- No output gets into the way of another file. If a file is to be written, another file is not
reached through the place of its output, unless a directory is there, or through a directory that
the output lacks. If the other file is to be written too, the same goes for the place of the first
output and the way to the second, and both outputs may lack a directory only if no plain file is on
the way to the second. -/
structure Independent (files : List Path) : Prop where
  current : t.get? t.current = some .directory
  inputs : ∀ p ∈ files, ∀ q ∈ files, p ≠ q → Saves config args t p →
    ∀ m ∈ way t.current (config.outputPath p),
      m = target t.current (config.outputPath p) ∧ t.get? m ≠ some .directory ∨ t.get? m = none →
        m ∉ way t.current q
  outputs : ∀ p ∈ files, ∀ q ∈ files, p ≠ q → Saves config args t p → Saves config args t q →
    t.get? (target t.current (config.outputPath p)) ≠ some .directory →
      target t.current (config.outputPath p) ∉ way t.current (config.outputPath q)
  shared : ∀ p ∈ files, ∀ q ∈ files, p ≠ q → Saves config args t p → Saves config args t q →
    ∀ m ∈ way t.current (config.outputPath p), m ∈ way t.current (config.outputPath q) →
      t.get? m = none → t.Clear (way t.current ((config.outputPath q).parent?.getD []))

variable (config args t) in
/-- The tree after the turn of one file alone. -/
def alone (p : Path) : FileTree :=
  ((compileFile config args p : StateM FileTree _).run t).2

variable (config args t) in
/-- A tree in which some files have had their turns: each place is as one of them left it that
changed it, or as it was. -/
structure After (done : List Path) (u : FileTree) : Prop where
  current : u.current = t.current
  get? : ∀ m,
    (∃ p ∈ done, (alone config args t p).get? m ≠ t.get? m ∧
      u.get? m = (alone config args t p).get? m) ∨
    (∀ p ∈ done, (alone config args t p).get? m = t.get? m) ∧ u.get? m = t.get? m

theorem changed_of_alone (hcurrent : t.get? t.current = some .directory) {m : Location}
    (hm : (alone config args t p).get? m ≠ t.get? m) :
    Saves config args t p ∧
      (m = target t.current (config.outputPath p) ∧ t.get? m ≠ some .directory ∨
        m ∈ way t.current (config.outputPath p) ∧ t.get? m = none ∧
          (alone config args t p).get? m = some .directory) := by
  have hagree (places : List Location) : Agree places t t := ⟨rfl, fun _ _ => rfl⟩
  obtain ⟨report, t', u', ht, -, hrepeats, hsaves⟩ :
      ∃ report t' u', (compileFile config args p : StateM FileTree _).run t = (report, t') ∧ _ :=
    exists_compileFile hcurrent (hagree (way t.current p))
      fun _ => ⟨⟨rfl, fun _ _ => .inl rfl⟩, rfl, .inl (hagree _)⟩
  have halone : alone config args t p = t' := by rw [alone, ht]
  rw [halone] at hm ⊢
  refine ⟨hsaves.resolve_right fun h => hm (by rw [h]), hrepeats.changed m hm⟩

/-- Two files that change the same place both make a directory there. -/
theorem Independent.alone_eq {files : List Path} (h : Independent config args t files)
    (hp : p ∈ files) (hq : q ∈ files) {m : Location}
    (hmp : (alone config args t p).get? m ≠ t.get? m)
    (hmq : (alone config args t q).get? m ≠ t.get? m) :
    (alone config args t p).get? m = (alone config args t q).get? m := by
  by_cases hpq : p = q
  · rw [hpq]
  · obtain ⟨hsp, hwp⟩ := changed_of_alone h.current hmp
    obtain ⟨hsq, hwq⟩ := changed_of_alone h.current hmq
    have hnp := h.outputs p hp q hq hpq hsp hsq
    have hnq := h.outputs q hq p hp (Ne.symm hpq) hsq hsp
    have htp := target_mem_way t.current (config.outputPath p)
    have htq := target_mem_way t.current (config.outputPath q)
    grind

section Turn

variable {files done : List Path} (h : Independent config args t files)
  (hu : After config args t done u) (hdone : done ⊆ files) (hq : q ∈ files) (hnew : q ∉ done)
include h hu hdone hnew

/-- What earlier turns have changed, by the file that did it. -/
theorem After.exists_changed {m : Location} (hm : u.get? m ≠ t.get? m) :
    ∃ p ∈ files, p ≠ q ∧ Saves config args t p ∧ m ∈ way t.current (config.outputPath p) ∧
      (m = target t.current (config.outputPath p) ∧ t.get? m ≠ some .directory ∨
        t.get? m = none ∧ u.get? m = some .directory) := by
  obtain ⟨p, hp, hne, hget⟩ | ⟨-, hget⟩ := hu.get? m
  · obtain ⟨hsaves, hway⟩ := changed_of_alone h.current hne
    have htarget := target_mem_way t.current (config.outputPath p)
    refine ⟨p, hdone hp, fun hpq => hnew (hpq ▸ hp), hsaves, ?_⟩
    grind
  · exact absurd hget hm

include hq

theorem After.agree_input : Agree (way t.current q) t u := by
  refine ⟨hu.current, fun m hm => Classical.byContradiction fun hne => ?_⟩
  obtain ⟨p, hp, hpq, hsaves, hway, hcase⟩ := hu.exists_changed h hdone hnew hne
  exact h.inputs p hp q hq hpq hsaves m hway (hcase.imp id And.left) hm

theorem After.extends_output (hsq : Saves config args t q) :
    Extends (way t.current (config.outputPath q)) t u := by
  refine ⟨hu.current, fun m hm => ?_⟩
  by_cases hne : u.get? m = t.get? m
  · exact .inl hne
  · obtain ⟨p, hp, hpq, hsp, -, ⟨rfl, hfile⟩ | hmade⟩ := hu.exists_changed h hdone hnew hne
    · exact absurd hm (h.outputs p hp q hq hpq hsp hsq hfile)
    · exact .inr hmade

theorem After.get?_output (hsq : Saves config args t q) :
    u.get? (target t.current (config.outputPath q)) =
      t.get? (target t.current (config.outputPath q)) := by
  apply Classical.byContradiction
  intro hne
  obtain ⟨p, hp, hpq, hsp, hway, hcase⟩ := hu.exists_changed h hdone hnew hne
  apply h.outputs q hq p hp (Ne.symm hpq) hsq hsp _ hway
  grind

theorem After.clear_output (hsq : Saves config args t q) :
    Agree (way t.current (config.outputPath q)) t u ∨
      t.Clear (way t.current ((config.outputPath q).parent?.getD [])) := by
  apply Classical.or_iff_not_imp_left.mpr
  intro hagree
  obtain ⟨m, hm, hne⟩ : ∃ m ∈ way t.current (config.outputPath q), u.get? m ≠ t.get? m := by
    apply Classical.byContradiction
    intro hall
    exact hagree ⟨hu.current, fun m hm => Classical.byContradiction fun hne => hall ⟨m, hm, hne⟩⟩
  obtain ⟨p, hp, hpq, hsp, hway, ⟨rfl, hfile⟩ | hmade⟩ := hu.exists_changed h hdone hnew hne
  · exact absurd hm (h.outputs p hp q hq hpq hsp hsq hfile)
  · exact h.shared p hp q hq hpq hsp hsq m hway hm hmade.1

/-- The turn of a file after those of others says what it says alone, and changes what it changes
alone. -/
theorem After.turn :
    ((compileFile config args q : StateM FileTree _).run u).1 =
      ((compileFile config args q : StateM FileTree _).run t).1 ∧
    After config args t (q :: done) ((compileFile config args q : StateM FileTree _).run u).2 := by
  obtain ⟨report, t', u', ht, hu', hrepeats, -⟩ :
      ∃ report t' u', (compileFile config args q : StateM FileTree _).run t = (report, t') ∧ _ :=
    exists_compileFile h.current (hu.agree_input h hdone hq hnew) fun hsq =>
      ⟨hu.extends_output h hdone hq hnew hsq, hu.get?_output h hdone hq hnew hsq,
        hu.clear_output h hdone hq hnew hsq⟩
  have halone : alone config args t q = t' := by rw [alone, ht]
  rw [ht, hu']
  refine ⟨rfl, hrepeats.current.2.trans hu.current, fun m => ?_⟩
  have hm := hrepeats.get? m
  have hbefore := hu.get? m
  by_cases hsame : t'.get? m = t.get? m
  · rw [if_pos hsame] at hm
    rw [hm]
    simp only [List.mem_cons, exists_eq_or_imp, forall_eq_or_imp, halone, hsame]
    simpa using hbefore
  · rw [if_neg hsame] at hm
    exact .inl ⟨q, by simp, by rwa [halone], by rw [halone, hm]⟩

end Turn

theorem After.mapM {files done order : List Path} (h : Independent config args t files)
    (hu : After config args t done u) (hdone : done ⊆ files) (horder : order ⊆ files)
    (hnodup : order.Nodup) (hnew : ∀ q ∈ order, q ∉ done) :
    ((order.mapM (compileFile config args) : StateM FileTree _).run u).1 =
      order.map (fun q => ((compileFile config args q : StateM FileTree _).run t).1) ∧
    After config args t (order.reverse ++ done)
      ((order.mapM (compileFile config args) : StateM FileTree _).run u).2 := by
  induction order generalizing done u with
  | nil => exact ⟨rfl, hu⟩
  | cons q order ih =>
    obtain ⟨hreport, hafter⟩ := hu.turn h hdone (horder (by simp)) (hnew q (by simp))
    rw [List.nodup_cons] at hnodup
    obtain ⟨hreports, hlast⟩ := ih hafter
      (List.cons_subset.mpr ⟨horder (by simp), hdone⟩)
      (fun p hp => horder (List.mem_cons_of_mem _ hp)) hnodup.2 (by grind)
    rw [run_mapM_cons]
    refine ⟨by rw [hreport, hreports, List.map_cons], ?_⟩
    rwa [List.reverse_cons, List.append_assoc]

/-- Turns of the same files lead to the same entries. -/
theorem After.get?_eq {files done done' : List Path} {u' : FileTree}
    (h : Independent config args t files) (hu : After config args t done u)
    (hu' : After config args t done' u') (hdone : done ⊆ files)
    (hsame : ∀ p, p ∈ done ↔ p ∈ done') (m : Location) : u.get? m = u'.get? m := by
  obtain ⟨p, hp, hne, hget⟩ | ⟨hnone, hget⟩ := hu.get? m
  · obtain ⟨q, hq, hne', hget'⟩ | ⟨hnone, -⟩ := hu'.get? m
    · rw [hget, hget']
      exact h.alone_eq (hdone hp) (hdone ((hsame q).mpr hq)) hne hne'
    · exact absurd (hnone p ((hsame p).mp hp)) hne
  · obtain ⟨q, hq, hne, -⟩ | ⟨-, hget'⟩ := hu'.get? m
    · exact absurd (hnone q ((hsame q).mpr hq)) hne
    · rw [hget, hget']

/-- A run whose input files have their turns in some order. Its reports are in the order of the
input files. -/
def inOrder {m : Type → Type} [Monad m] [FileStore m] (config : Config) (args : Arguments)
    (order : List Path) : m Run := do
  let files ← inputFiles config args
  let reports ← order.mapM (compileFile config args)
  return ⟨args, config, files.filterMap fun f => reports.find? (·.path = f)⟩

theorem map_path_reports {σ : Type} [FileStore (StateM σ)] (config : Config) (args : Arguments)
    (files : List Path) (s : σ) :
    ((files.mapM (compileFile config args) : StateM σ _).run s).1.map (·.path) = files := by
  induction files generalizing s with
  | nil => rfl
  | cons f files ih =>
    obtain ⟨status, hreport, -⟩ := compileFile_report config args f s
    rw [run_mapM_cons, List.map_cons, ih, hreport]

theorem find?_path {reports : List FileReport} (h : (reports.map (·.path)).Nodup) {r : FileReport}
    (hr : r ∈ reports) : reports.find? (·.path = r.path) = some r := by
  induction reports with
  | nil => cases hr
  | cons r' reports ih => grind

/-- A run takes the files in the order in which they are given. -/
theorem once_eq_inOrder {σ : Type} [FileStore (StateM σ)] (s : σ)
    (hnodup : ((inputFiles config args : StateM σ _).run s).1.Nodup) :
    (once config args : StateM σ _).run s =
      (inOrder config args ((inputFiles config args : StateM σ _).run s).1 : StateM σ _).run s := by
  rw [once, inOrder, run_bind_eq, run_bind_eq, run_bind_eq, run_bind_eq]
  generalize (inputFiles config args : StateM σ _).run s = input at hnodup ⊢
  have hpaths := map_path_reports config args input.1 input.2
  generalize (input.1.mapM (compileFile config args) : StateM σ _).run input.2 = turns at hpaths ⊢
  have hfind : input.1.filterMap (fun f => turns.1.find? (·.path = f)) = turns.1 := by
    rw [← hpaths] at hnodup ⊢
    rw [List.filterMap_map]
    exact (List.filterMap_congr fun r hr => find?_path hnodup hr).trans List.filterMap_some
  rw [hfind]

theorem run_inputFiles (config : Config) (args : Arguments) (t : FileTree) :
    ((inputFiles config args : StateM FileTree _).run t).2 = t := by
  rw [inputFiles]
  split <;> rfl

/-- In any order, each file is reported on as if it had its turn alone, and what the turns leave is
what each of them leaves alone. -/
theorem run_inOrder {order : List Path}
    (h : Independent config args t ((inputFiles config args : StateM FileTree _).run t).1)
    (hnodup : ((inputFiles config args : StateM FileTree _).run t).1.Nodup)
    (horder : order.Perm ((inputFiles config args : StateM FileTree _).run t).1) :
    ((inOrder config args order : StateM FileTree _).run t).1 =
      ⟨args, config, ((inputFiles config args : StateM FileTree _).run t).1.map fun f =>
        ((compileFile config args f : StateM FileTree _).run t).1⟩ ∧
    After config args t order.reverse
      ((inOrder config args order : StateM FileTree _).run t).2 := by
  have hstart : After config args t [] t := ⟨rfl, fun m => .inr ⟨nofun, rfl⟩⟩
  obtain ⟨hreports, hafter⟩ := hstart.mapM h (List.nil_subset _) horder.subset
    (horder.nodup_iff.mpr hnodup) (by simp)
  have hpaths := map_path_reports config args order t
  rw [inOrder, run_bind_eq, run_bind_eq, run_inputFiles]
  rw [List.append_nil] at hafter
  refine ⟨?_, hafter⟩
  change Run.mk args config (List.filterMap _ _) = _
  congr 1
  rw [← List.filterMap_eq_map]
  apply List.filterMap_congr
  intro f hf
  obtain ⟨status, hreport, -⟩ := compileFile_report config args f t
  have hmem : (⟨f, status⟩ : FileReport) ∈
      ((order.mapM (compileFile config args) : StateM FileTree _).run t).1 := by
    rw [hreports, List.mem_map]
    exact ⟨f, horder.mem_iff.mpr hf, hreport⟩
  have hdistinct : (((order.mapM (compileFile config args) : StateM FileTree _).run t).1.map
      (·.path)).Nodup := by
    rw [hpaths]
    exact horder.nodup_iff.mpr hnodup
  rw [find?_path hdistinct hmem, Function.comp_apply, hreport]

/-- The order of the turns does not matter if no output gets into the way of another file: the
reports and all entries are the same in any two orders, and a run takes one of them. -/
theorem inOrder_eq_of_perm (config : Config) (args : Arguments) (t : FileTree)
    {order₁ order₂ : List Path}
    (hnodup : ((inputFiles config args : StateM FileTree _).run t).1.Nodup)
    (h : Independent config args t ((inputFiles config args : StateM FileTree _).run t).1)
    (h₁ : order₁.Perm ((inputFiles config args : StateM FileTree _).run t).1)
    (h₂ : order₂.Perm ((inputFiles config args : StateM FileTree _).run t).1) :
    (once config args : StateM FileTree _).run t =
      (inOrder config args ((inputFiles config args : StateM FileTree _).run t).1 :
        StateM FileTree _).run t ∧
    ((inOrder config args order₁ : StateM FileTree _).run t).1 =
      ((inOrder config args order₂ : StateM FileTree _).run t).1 ∧
    ∀ l, ((inOrder config args order₁ : StateM FileTree _).run t).2.get? l =
      ((inOrder config args order₂ : StateM FileTree _).run t).2.get? l := by
  obtain ⟨hreports₁, hafter₁⟩ := run_inOrder h hnodup h₁
  obtain ⟨hreports₂, hafter₂⟩ := run_inOrder h hnodup h₂
  refine ⟨once_eq_inOrder t hnodup, hreports₁.trans hreports₂.symm, fun l => ?_⟩
  apply hafter₁.get?_eq h hafter₂
  · exact fun p hp => h₁.subset (List.mem_reverse.mp hp)
  · intro p
    rw [List.mem_reverse, List.mem_reverse]
    exact (h₁.trans h₂.symm).mem_iff

/-- Two files whose outputs go to a directory that is still to be made. -/
theorem inOrder_eq_of_perm_outDir :
    let files : List Path := ["a.wml".toList, "b.wml".toList]
    let t : FileTree := {
      entries := [(["a.wml".toList], .file (Text.utf8 ['i'])),
        (["b.wml".toList], .file (Text.utf8 ['b']))] }
    let config : Config := {
      workspace := [], source := none, options := {}, extensions := Config.defaultExtensions,
      excludeTexts := [], exclude := [], outDir := some "dist".toList }
    let result := (once config { files } : StateM FileTree _).run t
    let reversed := (inOrder config { files } files.reverse : StateM FileTree _).run t
    t.get? ["dist".toList] = none ∧
    result.1.reports = [⟨"a.wml".toList, .written "dist/a.html".toList⟩,
      ⟨"b.wml".toList, .written "dist/b.html".toList⟩] ∧
    result.2.get? ["dist".toList, "a.html".toList] =
      some (.file (Text.utf8 "<i>\n</i>\n".toList)) ∧
    result.1 = reversed.1 ∧ ∀ l, result.2.get? l = reversed.2.get? l := by
  intro files t config result reversed
  have h : Independent config { files } t files := by
    refine ⟨rfl, ?_, ?_, ?_⟩
    · have hinputs : ∀ p ∈ files, ∀ q ∈ files, p ≠ q →
          ∀ m ∈ way t.current (config.outputPath p),
            m = target t.current (config.outputPath p) ∧ t.get? m ≠ some .directory ∨
              t.get? m = none → m ∉ way t.current q := by decide +kernel
      exact fun p hp q hq hpq _ => hinputs p hp q hq hpq
    · have houtputs : ∀ p ∈ files, ∀ q ∈ files, p ≠ q →
          target t.current (config.outputPath p) ∉ way t.current (config.outputPath q) := by
        decide +kernel
      exact fun p hp q hq hpq _ _ _ => houtputs p hp q hq hpq
    · have hclear : ∀ q ∈ files, ∀ m ∈ way t.current ((config.outputPath q).parent?.getD []),
          t.get? m = none ∨ t.get? m = some .directory := by decide +kernel
      exact fun p hp q hq _ _ _ _ _ _ _ => hclear q hq
  refine ⟨by decide +kernel, by decide +kernel, by decide +kernel, ?_⟩
  obtain ⟨hrun, hsame⟩ := inOrder_eq_of_perm config { files } t (by decide +kernel) h (.refl _)
    (List.reverse_perm files)
  rw [← hrun] at hsame
  exact hsame

/-- Two inputs with the same output: the later turn decides what it holds. -/
theorem inOrder_of_shared_output :
    let files : List Path := ["a.wml".toList, "a.md".toList]
    let t : FileTree := {
      entries := [(["a.wml".toList], .file (Text.utf8 ['b'])),
        (["a.md".toList], .file (Text.utf8 ['i']))] }
    let config : Config := {
      workspace := [], source := none, options := {}, extensions := Config.defaultExtensions,
      excludeTexts := [], exclude := [], outDir := none }
    ((inputFiles config { files } : StateM FileTree _).run t).1 = files ∧ files.Nodup ∧
    files.reverse.Perm files ∧
    ((inOrder config { files } files : StateM FileTree _).run t).2.get? ["a.html".toList] =
      some (.file (Text.utf8 "<i>\n</i>\n".toList)) ∧
    ((inOrder config { files } files.reverse : StateM FileTree _).run t).2.get? ["a.html".toList] =
      some (.file (Text.utf8 "<b>\n</b>\n".toList)) := by
  decide +kernel

end Run
end IndentMarkup
