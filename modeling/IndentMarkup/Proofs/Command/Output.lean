import IndentMarkup.Command.Config
import IndentMarkup.Proofs.Files.FileName

/-! Where the HTML of a source inside the workspace goes: into the directory of the source, or into
the directory at the same place below the output directory. -/
namespace IndentMarkup

/-- A source inside a workspace: its components go on behind those of the workspace, and it has a
file name. -/
structure Path.Inside (workspace p : Path) : Prop where
  below : workspace.components <+: p.components
  proper : p.components ≠ workspace.components
  named : p.fileName?.isSome = true

namespace Config
open IndentMarkup.Path

variable {c : Config} {p dir : Path} {name : Text} {inner : List Component}

/-- The last component of the output for a source with a given stem. -/
def outputEnd (p : Path) (stem : Text) : Component :=
  if p.endsInDots then .parent else .name (stem ++ ".html".toList)

/-- The directory of a source inside a workspace is the workspace or inside it. -/
theorem exists_named {workspace : Path} (h : Inside workspace p) :
    ∃ dir name inner, Named p dir name ∧ dir.components = workspace.components ++ inner := by
  obtain ⟨⟨dir, name⟩, hsplit⟩ : ∃ split, p.splitName? = some split := by
    have hnamed := h.named
    rwa [fileName?, Option.isSome_map, Option.isSome_iff_exists] at hnamed
  have hname : Named p dir name := splitName?_eq_some_iff.mp hsplit
  have hbelow := h.below
  rw [hname.components_eq, List.prefix_concat_iff, ← hname.components_eq] at hbelow
  obtain ⟨inner, hinner⟩ := hbelow.resolve_left h.proper.symm
  exact ⟨dir, name, inner, hname, hinner.symm⟩

theorem components_html (h : Named p dir name) :
    (p.withExtension "html".toList).components =
      dir.components ++ [outputEnd p (splitExtension name).1] := by
  rw [outputEnd]
  split
  · next hd =>
    rw [(h.withExtension_of_endsInDots hd _).1]
    exact components_append_part h.front (by decide) rfl
  · next hd =>
    rw [h.withExtension_eq (by simpa using hd)]
    refine components_append_part h.front ?_ ?_
    · intro hm
      rcases List.mem_append.mp hm with hm | hm
      · exact h.noSlash (stem_subset name hm)
      · exact absurd hm (by decide)
    · exact partComponent?_stem (stem_ne_nil h.name_ne_nil) fun _ => by decide

theorem components_outputPath (hw : c.workspace ≠ []) (h : Named p dir name)
    (hin : dir.components = c.workspace.components ++ inner) :
    (c.outputPath p).components =
      c.outDir.elim dir.components (fun d => d.components ++ inner) ++
        [outputEnd p (splitExtension name).1] := by
  have hhtml := components_html h
  rw [outputPath]
  cases c.outDir with
  | none => exact hhtml
  | some d =>
    rw [hin, List.append_assoc] at hhtml
    obtain ⟨rel, hrel, hcomponents, hleading⟩ := exists_relativeTo? hhtml
    simp only [hrel, components_join (hleading hw), hcomponents, Option.elim_some,
      List.append_assoc]

theorem outputEnd_eq_iff {q dir' : Path} {name' : Text} (hp : Named p dir name)
    (hq : Named q dir' name') :
    outputEnd p (splitExtension name).1 = outputEnd q (splitExtension name').1 ↔
      (splitExtension name).1 = (splitExtension name').1 ∧ p.endsInDots = q.endsInDots := by
  unfold outputEnd
  cases hdp : p.endsInDots <;> cases hdq : q.endsInDots
  · simp
  · simp
  · simp
  · have hstem := (hp.withExtension_of_endsInDots hdp []).2
    have hstem' := (hq.withExtension_of_endsInDots hdq []).2
    simp [hstem, hstem']

/-- The output for a source inside the workspace is the file `stem.html` at the place of the source
below the output directory, or beside the source if there is none, unless the source ends in two
dots and an extension: for such a name it is the directory above. So two sources share their output
just if they share their directory and their stem, and neither or both end in this way. -/
theorem outputPath_inside (c : Config) (hw : c.workspace ≠ []) :
    (∀ p, Inside c.workspace p → ∃ dir rel stem,
      p.parent? = some dir ∧ dir.relativeTo? c.workspace = some rel ∧ p.fileStem? = some stem ∧
      (c.outputPath p).components =
        c.outDir.elim dir.components (fun d => d.components ++ rel.components) ++
          [if p.endsInDots then .parent else .name (stem ++ ".html".toList)]) ∧
    (∀ p q, Inside c.workspace p → Inside c.workspace q →
      ((c.outputPath p).components = (c.outputPath q).components ↔
        p.parent?.map components = q.parent?.map components ∧ p.fileStem? = q.fileStem? ∧
          p.endsInDots = q.endsInDots)) := by
  constructor
  · intro p hp
    obtain ⟨dir, name, inner, hname, hin⟩ := exists_named hp
    obtain ⟨parent, hparent, hcomponents⟩ := hname.exists_parent?
    obtain ⟨rel, hrel, hinner, -⟩ := exists_relativeTo? (hcomponents.trans hin)
    refine ⟨parent, rel, _, hparent, hrel, by rw [fileStem?, hname.fileName?_eq]; rfl, ?_⟩
    rw [components_outputPath hw hname hin, hcomponents, hinner]
    rfl
  · intro p q hp hq
    obtain ⟨dir, name, inner, hname, hin⟩ := exists_named hp
    obtain ⟨dir', name', inner', hname', hin'⟩ := exists_named hq
    obtain ⟨parent, hparent, hcomponents⟩ := hname.exists_parent?
    obtain ⟨parent', hparent', hcomponents'⟩ := hname'.exists_parent?
    have hhome : c.outDir.elim dir.components (fun d => d.components ++ inner) =
        c.outDir.elim dir'.components (fun d => d.components ++ inner') ↔
        dir.components = dir'.components := by
      cases c.outDir <;> simp [hin, hin']
    rw [components_outputPath hw hname hin, components_outputPath hw hname' hin',
      List.append_singleton_inj, hhome, outputEnd_eq_iff hname hname', hparent, hparent',
      fileStem?, fileStem?, hname.fileName?_eq, hname'.fileName?_eq]
    simp [hcomponents, hcomponents']

/-- Two sources with one output, below an output directory outside the workspace. -/
theorem outputPath_inside_shared :
    let c : Config := {
      workspace := "ws".toList, source := none, options := {}, extensions := defaultExtensions,
      excludeTexts := [], exclude := [], outDir := some "ws/../out".toList }
    let p : Path := "ws//a/./x.y.wml".toList
    let q : Path := "ws/a/x.y.md/".toList
    c.workspace ≠ [] ∧ Inside c.workspace p ∧ Inside c.workspace q ∧
    (∃ dir rel stem,
      p.parent? = some dir ∧ dir.relativeTo? c.workspace = some rel ∧ p.fileStem? = some stem ∧
      (c.outputPath p).components =
        components "ws/../out".toList ++ rel.components ++ [.name (stem ++ ".html".toList)]) ∧
    (c.outputPath p).components = (c.outputPath q).components := by
  intro c p q
  have hw : c.workspace ≠ [] := by decide
  have hp : Inside c.workspace p := ⟨by decide, by decide, by decide⟩
  have hq : Inside c.workspace q := ⟨by decide, by decide, by decide⟩
  obtain ⟨houtput, hshared⟩ := outputPath_inside c hw
  exact ⟨hw, hp, hq, houtput p hp,
    (hshared p q hp hq).mpr ⟨by decide, by decide, by decide⟩⟩

/-- A source of two dots and an extension has the stem `.`, but its output is no file `..html`. -/
theorem outputPath_of_two_dots :
    let c : Config := {
      workspace := "/proj".toList, source := none, options := {}, extensions := defaultExtensions,
      excludeTexts := [], exclude := [], outDir := some "/proj/out".toList }
    let p : Path := "/proj/..wml".toList
    c.workspace ≠ [] ∧ Inside c.workspace p ∧ c.hasMarkupExtension p = true ∧
    p.fileStem? = some ['.'] ∧ c.outputPath p = "/proj/out/..".toList ∧
    (c.outputPath p).components ≠ components "/proj/out/..html".toList := by
  intro c p
  exact ⟨by decide, ⟨by decide, by decide, by decide⟩, by decide, by decide, by decide, by decide⟩

end Config
end IndentMarkup
