import IndentMarkup.Proofs.Files.View

/-! Paths in a file tree. What a path names does not depend on what is there: its parts are followed
one by one, and the entries on the way only decide whether this succeeds. -/
namespace IndentMarkup

namespace Location

/-- One step from a location. -/
def step (l : Location) (part : Text) : Location :=
  match Path.partComponent? part with
  | some (.name n) => l ++ [n]
  | some .parent => l.dropLast
  | _ => l

/-- The places that parts lead through, from where they start to what they name. -/
def trail : Location → List Text → List Location
  | l, [] => [l]
  | l, part :: parts => l :: trail (step l part) parts

/-- Where a path starts, in a current directory. -/
def start (current : Location) (p : Path) : Location :=
  if p.isAbsolute then [] else current

/-- What a path names. -/
def target (current : Location) (p : Path) : Location :=
  p.parts.foldl step (start current p)

/-- The places that a path leads through, what it names included. -/
def way (current : Location) (p : Path) : List Location :=
  trail (start current p) p.parts

variable {l m : Location} {parts more : List Text}

theorem mem_trail_self (l : Location) (parts : List Text) : l ∈ trail l parts := by
  cases parts <;> simp [trail]

theorem mem_trail_append :
    m ∈ trail l (parts ++ more) ↔ m ∈ trail l parts ∨ m ∈ trail (parts.foldl step l) more := by
  induction parts generalizing l with
  | nil =>
    have := mem_trail_self l more
    simp only [trail, List.nil_append, List.foldl_nil, List.mem_singleton]
    grind
  | cons part parts ih =>
    simp only [trail, List.cons_append, List.mem_cons, ih, List.foldl_cons, or_assoc]

theorem foldl_mem_trail (l : Location) (parts : List Text) :
    parts.foldl step l ∈ trail l parts := by
  induction parts generalizing l with
  | nil => simp [trail]
  | cons part parts ih => exact List.mem_cons_of_mem _ (ih _)

theorem target_mem_way (current : Location) (p : Path) : target current p ∈ way current p :=
  foldl_mem_trail _ _

end Location

namespace FileTree
open Location

variable {t u : FileTree} {l m : Location} {p : Path}

/-- A part that is a name longer than allowed. -/
def tooLong (part : Text) : Bool :=
  match Path.partComponent? part with
  | some (.name n) => maxName < (Text.utf8 n).length
  | _ => false

theorem get?_put {l : Location} (hl : l ≠ []) (t : FileTree) (e : FileEntry) (m : Location) :
    (t.put l e).get? m = if m = l then some e else t.get? m := by
  have hfilter : m ≠ l → (t.entries.filter fun x => x.1 != l).lookup m = t.entries.lookup m := by
    intro hm
    induction t.entries with
    | nil => rfl
    | cons x entries ih => grind
  unfold get? put
  grind

theorem enter_eq (t : FileTree) (l : Location) (part : Text) :
    t.enter l part =
      match t.get? l with
      | none => .error .notFound
      | some (.file _) => .error .notDirectory
      | some .directory => if tooLong part then .error .nameTooLong else .ok (step l part) := by
  unfold enter tooLong step
  cases t.get? l with
  | none => rfl
  | some e =>
    cases e with
    | file => rfl
    | directory => cases Path.partComponent? part with
      | none => rfl
      | some c => cases c <;> simp

/-- Follows parts from a location. -/
def walk (t : FileTree) (l : Location) (parts : List Text) : Except FileError Location :=
  parts.foldlM t.enter l

theorem walk_cons (t : FileTree) (l : Location) (part : Text) (parts : List Text) :
    t.walk l (part :: parts) =
      match t.get? l with
      | none => .error .notFound
      | some (.file _) => .error .notDirectory
      | some .directory =>
        if tooLong part then .error .nameTooLong else t.walk (step l part) parts := by
  rw [walk, List.foldlM_cons, enter_eq]
  cases t.get? l with
  | none => rfl
  | some e =>
    cases e with
    | file => rfl
    | directory => by_cases h : tooLong part <;> simp [h] <;> rfl

theorem locate_eq (t : FileTree) (p : Path) :
    t.locate p = (checkPath p).bind fun _ => t.walk (start t.current p) p.parts := rfl

/-- Parts that can be followed lead to what they name. -/
theorem eq_foldl_of_walk {parts : List Text} (h : t.walk l parts = .ok m) :
    m = parts.foldl step l := by
  induction parts generalizing l with
  | nil => cases h; rfl
  | cons part parts ih =>
    rw [walk_cons] at h
    split at h
    · cases h
    · cases h
    · split at h
      · cases h
      · exact ih h

theorem eq_target_of_locate (h : t.locate p = .ok l) : l = target t.current p := by
  rw [locate_eq] at h
  cases hc : checkPath p with
  | error e => simp [hc, Except.bind] at h
  | ok =>
    simp only [hc, Except.bind] at h
    exact eq_foldl_of_walk h

theorem locateFile_ne_ok {dir : Path} (h : p.aboveDirectory? = some dir) :
    t.locateFile p ≠ .ok l := by
  rw [locateFile, h]
  cases checkPath p with
  | error e => nofun
  | ok =>
    change (t.locate _ >>= fun _ => Except.error FileError.isDirectory) ≠ Except.ok l
    cases t.locate (dir ++ ['.']) <;> nofun

theorem eq_target_of_locateFile (h : t.locateFile p = .ok l) : l = target t.current p := by
  cases ha : p.aboveDirectory? with
  | none =>
    rw [locateFile, ha] at h
    exact eq_target_of_locate h
  | some dir => exact absurd h (locateFile_ne_ok ha)

theorem makeDirectory_eq (t : FileTree) (p : Path) :
    t.makeDirectory p =
      match t.locate p with
      | .error e => .error e
      | .ok l =>
        match t.get? l with
        | some _ => .error .alreadyExists
        | none => .ok (t.put l .directory) := by
  unfold makeDirectory
  cases t.locate p with
  | error e => rfl
  | ok l =>
    change (match t.get? l with | some _ => _ | none => _) = _
    dsimp only
    cases t.get? l <;> rfl

theorem write_eq (t : FileTree) (p : Path) (content : List UInt8) :
    t.write p content =
      match t.locateFile p with
      | .error e => .error e
      | .ok l =>
        if t.get? l = some .directory then .error .isDirectory
        else .ok (t.put l (.file content)) := by
  unfold write
  cases t.locateFile p with
  | error e => rfl
  | ok l =>
    dsimp only [bind, Except.bind]
    cases t.get? l with
    | none => rfl
    | some e => cases e <;> rfl

theorem makeDirectory_eq_ok (h : t.makeDirectory p = .ok u) :
    t.get? (target t.current p) = none ∧ u = t.put (target t.current p) .directory := by
  rw [makeDirectory_eq] at h
  split at h
  · cases h
  · next hl =>
    obtain rfl := eq_target_of_locate hl
    split at h
    · cases h
    · next hn => exact ⟨hn, (Except.ok.inj h).symm⟩

theorem write_eq_ok {content : List UInt8} (h : t.write p content = .ok u) :
    t.get? (target t.current p) ≠ some .directory ∧
      u = t.put (target t.current p) (.file content) := by
  rw [write_eq] at h
  split at h
  · cases h
  · next hl =>
    obtain rfl := eq_target_of_locateFile hl
    split at h
    · cases h
    · next hn => exact ⟨hn, (Except.ok.inj h).symm⟩

theorem ne_root_of_get? (h : t.get? l ≠ some .directory) : l ≠ [] := by
  rintro rfl
  exact h rfl

theorem run_makeDirectory (p : Path) (t : FileTree) :
    (FileStore.makeDirectory p : StateM FileTree _).run t =
      match t.makeDirectory p with
      | .error e => (.error e, t)
      | .ok u => (.ok (), u) := by
  change StateT.run (match t.makeDirectory p with | .error e => _ | .ok u => _) t = _
  cases t.makeDirectory p <;> rfl

theorem run_writeBytes (p : Path) (content : List UInt8) (t : FileTree) :
    (FileStore.writeBytes p content : StateM FileTree _).run t =
      match t.write p content with
      | .error e => (.error e, t)
      | .ok u => (.ok (), u) := by
  change StateT.run (match t.write p content with | .error e => _ | .ok u => _) t = _
  cases t.write p content <;> rfl

/-- The entries of a tree, each at its location. -/
def view : FileView FileTree where
  Place := Location
  entry := get?
  Names t p l := l = target t.current p

theorem content_put {l : Location} (hl : l ≠ []) (t : FileTree) (e : FileEntry) (m : Location)
    (h : m = l → t.get? m = none ∧ e = .directory) :
    view.content (t.put l e) m = view.content t m := by
  have hget := get?_put hl t e m
  simp only [FileView.content]
  by_cases hm : m = l
  · obtain ⟨hnone, rfl⟩ := h hm
    rw [if_pos hm] at hget
    rw [show view.entry = get? from rfl, hget, hnone]
  · rw [if_neg hm] at hget
    rw [show view.entry = get? from rfl, hget]

theorem lawful_view : view.Lawful where
  kind? _ := .refl
  readBytes _ := .refl
  filesUnder _ := .refl
  makeDirectory p t := by
    rw [run_makeDirectory]
    cases h : t.makeDirectory p with
    | error e => exact .refl t
    | ok u =>
      obtain ⟨hnone, rfl⟩ := makeDirectory_eq_ok h
      have hroot : target t.current p ≠ [] := ne_root_of_get? (t := t) (by simp [hnone])
      refine ⟨fun l hl => hl (content_put hroot t _ l ?_), rfl⟩
      rintro rfl
      exact ⟨hnone, rfl⟩
  writeBytes p content t := by
    rw [run_writeBytes]
    cases h : t.write p content with
    | error e => exact .refl t
    | ok u =>
      obtain ⟨hentry, rfl⟩ := write_eq_ok h
      refine ⟨fun l hl => ?_, rfl⟩
      apply Classical.byContradiction
      intro hne
      exact hl (content_put (ne_root_of_get? hentry) t _ l fun h => absurd h hne)

end FileTree
end IndentMarkup
