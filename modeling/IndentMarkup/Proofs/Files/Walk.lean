import IndentMarkup.Proofs.Files.Path
import IndentMarkup.Proofs.Files.Tree

/-! Following a path in a tree depends only on the entries on its way, and goes by way of the path's
parent. -/
namespace IndentMarkup
open IndentMarkup.Path

namespace Location

variable {c l m : Location} {p q : Path}

theorem foldl_step_blanks {blanks : List Text} (h : Blanks blanks) (l : Location) :
    blanks.foldl step l = l := by
  induction blanks with
  | nil => rfl
  | cons b blanks ih =>
    have hb : partComponent? b = none := h b (by simp)
    have hstep : step l b = l := by simp [step, hb]
    rw [List.foldl_cons, hstep, ih fun part hpart => h part (by simp [hpart])]

theorem mem_trail_blanks {blanks : List Text} (h : Blanks blanks) : m ∈ trail l blanks ↔ m = l := by
  induction blanks with
  | nil => simp [trail]
  | cons b blanks ih =>
    have hb : partComponent? b = none := h b (by simp)
    have hstep : step l b = l := by simp [step, hb]
    rw [trail, List.mem_cons, hstep, ih fun part hpart => h part (by simp [hpart]), or_self]

theorem mem_trail_append_blanks {parts blanks : List Text} (h : Blanks blanks) :
    m ∈ trail l (parts ++ blanks) ↔ m ∈ trail l parts := by
  rw [mem_trail_append, mem_trail_blanks h]
  constructor
  · rintro (h | rfl)
    · exact h
    · exact foldl_mem_trail l parts
  · exact .inl

theorem start_of_parent? (h : p.parent? = some q) : start c q = start c p := by
  rw [start, start, isAbsolute_of_parent? h]

/-- The way to a path is the way to its parent, and one step more. -/
theorem mem_way_of_parent? (h : p.parent? = some q) :
    m ∈ way c p ↔ m ∈ way c q ∨ m = target c p := by
  obtain ⟨shared, inner, outer, last, hinner, houter, hp, hq⟩ := exists_parts_of_parent? h
  obtain ⟨blanks, hblanks, htail⟩ := exists_parts_dropTail p
  have htarget : target c p = step (shared.foldl step (start c p)) last := by
    rw [target, htail, hp]
    simp only [List.foldl_append, foldl_step_blanks hblanks, foldl_step_blanks hinner,
      List.foldl_cons, List.foldl_nil]
  rw [way, way, start_of_parent? h, htail, hp, hq, mem_trail_append_blanks hblanks,
    mem_trail_append_blanks houter, mem_trail_append, mem_trail_append_blanks hinner, htarget]
  simp only [List.foldl_append, foldl_step_blanks hinner, trail, List.mem_cons, List.not_mem_nil,
    or_false]
  have := foldl_mem_trail (start c p) shared
  grind

theorem mem_way_of_parent?_eq_none (h : p.parent? = none) (hm : m ∈ way c p) : m = target c p := by
  obtain ⟨blanks, hblanks, htail⟩ := exists_parts_dropTail p
  have hall : Blanks p.parts := by
    rw [htail, dropTail_of_parent?_eq_none h]
    exact Blanks.append (by simp [Blanks, parts, partComponent?]) hblanks
  rw [target, foldl_step_blanks hall]
  exact (mem_trail_blanks hall).mp hm

end Location

namespace FileTree
open Location

variable {t u : FileTree} {l m : Location} {p q : Path} {parts : List Text}

theorem walk_append (t : FileTree) (l : Location) (a b : List Text) :
    t.walk l (a ++ b) = (t.walk l a).bind fun m => t.walk m b :=
  List.foldlM_append

theorem tooLong_of_blank {part : Text} (h : partComponent? part = none) : tooLong part = false := by
  simp [tooLong, h]

/-- Parts that say nothing are not noticed before another part, which asks for a directory too. -/
theorem walk_blanks_append {blanks : List Text} (h : Blanks blanks) (t : FileTree) (l : Location)
    (part : Text) : t.walk l (blanks ++ [part]) = t.walk l [part] := by
  induction blanks with
  | nil => rfl
  | cons b blanks ih =>
    have hb : partComponent? b = none := h b (by simp)
    have hstep : step l b = l := by simp [step, hb]
    rw [List.cons_append, walk_cons, hstep, tooLong_of_blank hb,
      ih fun part hpart => h part (by simp [hpart]), walk_cons]
    cases t.get? l with
    | none => rfl
    | some e => cases e <;> rfl

theorem any_tooLong_blanks {blanks : List Text} (h : Blanks blanks) : blanks.any tooLong = false :=
  List.any_eq_false.mpr fun b hb => by simp [tooLong_of_blank (h b hb)]

/-- The part of a trail before the first name that is longer than allowed. -/
def reach (l : Location) (parts : List Text) : List Location :=
  trail l (parts.takeWhile fun part => !tooLong part)

theorem reach_subset_trail (l : Location) (parts : List Text) : reach l parts ⊆ trail l parts := by
  intro m hm
  rw [← List.takeWhile_append_dropWhile (p := fun part => !tooLong part) (l := parts),
    mem_trail_append]
  exact .inl hm

theorem takeWhile_of_any_tooLong {a : List Text} (h : a.any tooLong = true) (b : List Text) :
    (a ++ b).takeWhile (fun part => !tooLong part) = a.takeWhile fun part => !tooLong part := by
  induction a with
  | nil => cases h
  | cons part a ih =>
    rw [List.cons_append, List.takeWhile_cons, List.takeWhile_cons]
    cases hpart : tooLong part with
    | true => rfl
    | false => rw [ih (by simpa [hpart] using h)]

theorem takeWhile_of_not_any_tooLong {a : List Text} (h : a.any tooLong = false) (b : List Text) :
    (a ++ b).takeWhile (fun part => !tooLong part) =
      a ++ b.takeWhile fun part => !tooLong part := by
  apply List.takeWhile_append_of_pos
  simpa using h

theorem reach_eq_trail (h : parts.any tooLong = false) : reach l parts = trail l parts := by
  have hall := takeWhile_of_not_any_tooLong h []
  rw [List.append_nil, List.takeWhile_nil, List.append_nil] at hall
  rw [reach, hall]

/-- A path without slashes or dots at its end is followed by way of its parent. -/
theorem walk_of_parent? (h : p.parent? = some q) (hp : p.dropTail = p) :
    ∃ last, p.parts.any tooLong = (q.parts.any tooLong || tooLong last) ∧
      ∀ (t : FileTree) (l : Location),
        t.walk l p.parts = (t.walk l q.parts).bind fun m => t.walk m [last] := by
  obtain ⟨shared, inner, outer, last, hinner, houter, hparts, hq⟩ := exists_parts_of_parent? h
  rw [hp] at hparts
  refine ⟨last, ?_, fun t l => ?_⟩
  · simp [hparts, hq, any_tooLong_blanks hinner, any_tooLong_blanks houter]
  · rw [hparts, hq, ← walk_append, List.append_assoc, List.append_assoc, walk_append,
      walk_append t l shared]
    simp only [walk_blanks_append hinner, walk_blanks_append houter]

theorem reach_of_parent?_of_tooLong (h : p.parent? = some q) (hp : p.dropTail = p)
    (hlong : q.parts.any tooLong = true) : reach l p.parts = reach l q.parts := by
  obtain ⟨shared, inner, outer, last, hinner, houter, hparts, hq⟩ := exists_parts_of_parent? h
  rw [hp, List.append_assoc] at hparts
  have hshared : shared.any tooLong = true := by
    simpa [hq, any_tooLong_blanks houter] using hlong
  rw [reach, reach, hparts, hq, takeWhile_of_any_tooLong hshared, takeWhile_of_any_tooLong hshared]

theorem reach_of_parent? (h : p.parent? = some q) (hp : p.dropTail = p)
    (hlong : q.parts.any tooLong = false) (hm : m ∈ reach l q.parts) : m ∈ reach l p.parts := by
  obtain ⟨shared, inner, outer, last, hinner, houter, hparts, hq⟩ := exists_parts_of_parent? h
  rw [hp, List.append_assoc] at hparts
  rw [reach_eq_trail hlong, hq, mem_trail_append_blanks houter] at hm
  have hshared : shared.any tooLong = false := by
    simpa [hq, any_tooLong_blanks houter] using hlong
  rw [reach, hparts, takeWhile_of_not_any_tooLong hshared, mem_trail_append]
  exact .inl hm

/-- The way that can be followed goes through directories. -/
theorem walk_eq_ok (h : t.walk l parts = .ok m) :
    parts.any tooLong = false ∧ ∀ x ∈ trail l parts, x = m ∨ t.get? x = some .directory := by
  induction parts generalizing l with
  | nil =>
    cases h
    simp [trail]
  | cons part parts ih =>
    rw [walk_cons] at h
    split at h
    · cases h
    · cases h
    · next hl =>
      split at h
      · cases h
      · next hpart =>
        obtain ⟨hany, hdir⟩ := ih h
        refine ⟨by simp [hpart, hany], ?_⟩
        rintro x (_ | ⟨_, hx⟩)
        · exact .inr hl
        · exact hdir x hx

theorem walk_eq_nameTooLong (h : t.walk l parts = .error .nameTooLong) :
    parts.any tooLong = true ∧ ∀ x ∈ reach l parts, t.get? x = some .directory := by
  induction parts generalizing l with
  | nil => cases h
  | cons part parts ih =>
    rw [walk_cons] at h
    split at h
    · cases h
    · cases h
    · next hl =>
      split at h
      · next hpart => simp [hpart, reach, trail, hl]
      · next hpart =>
        obtain ⟨hany, hdir⟩ := ih h
        refine ⟨by simp [hany], ?_⟩
        simp only [reach, List.takeWhile_cons, hpart, Bool.not_false, if_true, trail,
          List.forall_mem_cons]
        exact ⟨hl, hdir⟩

/-- No plain file is at any of the places. -/
def Clear (t : FileTree) (places : List Location) : Prop :=
  ∀ m ∈ places, t.get? m = none ∨ t.get? m = some .directory

theorem Clear.walk_eq_error {e : FileError} (h : t.Clear (trail l parts))
    (hw : t.walk l parts = .error e) : e = .notFound ∨ e = .nameTooLong := by
  induction parts generalizing l with
  | nil => cases hw
  | cons part parts ih =>
    have hl := h l (by simp [trail])
    rw [walk_cons] at hw
    split at hw
    · cases hw
      exact .inl rfl
    · next hfile => simp [hfile] at hl
    · split at hw
      · cases hw
        exact .inr rfl
      · exact ih (fun m hm => h m (List.mem_cons_of_mem _ hm)) hw

theorem walk_of_directories (h : ∀ m ∈ trail l parts, t.get? m = some .directory)
    (hlong : parts.any tooLong = false) : t.walk l parts = .ok (parts.foldl step l) := by
  induction parts generalizing l with
  | nil => rfl
  | cons part parts ih =>
    have hl := h l (by simp [trail])
    rw [List.any_cons, Bool.or_eq_false_iff] at hlong
    rw [walk_cons, hl, hlong.1]
    exact ih (fun m hm => h m (List.mem_cons_of_mem _ hm)) hlong.2

/-- Trees with the same entries at some places, and the same current directory. -/
structure Agree (places : List Location) (t u : FileTree) : Prop where
  current : u.current = t.current
  get? : ∀ m ∈ places, u.get? m = t.get? m

theorem walk_congr (h : ∀ m ∈ trail l parts, u.get? m = t.get? m) :
    u.walk l parts = t.walk l parts := by
  induction parts generalizing l with
  | nil => rfl
  | cons part parts ih =>
    rw [walk_cons, walk_cons, h l (by simp [trail]),
      ih fun m hm => h m (List.mem_cons_of_mem _ hm)]

theorem Agree.mono {places fewer : List Location} (h : Agree places t u) (hf : fewer ⊆ places) :
    Agree fewer t u :=
  ⟨h.current, fun m hm => h.get? m (hf hm)⟩

theorem Agree.locate (h : Agree (way t.current p) t u) : u.locate p = t.locate p := by
  rw [locate_eq, locate_eq, h.current, walk_congr h.get?]

theorem Agree.locateFile (h : Agree (way t.current p) t u) : u.locateFile p = t.locateFile p := by
  unfold FileTree.locateFile
  cases ha : p.aboveDirectory? with
  | none => exact h.locate
  | some dir =>
    obtain ⟨shared, rest, hp, hdir, habsolute⟩ := exists_parts_aboveDirectory? ha
    have hblank : Blanks [['.']] := by simp [Blanks, partComponent?]
    have hway : way t.current (dir ++ ['.']) ⊆ way t.current p := by
      intro m hm
      rw [way, start, habsolute, hdir, mem_trail_append_blanks hblank] at hm
      rw [way, hp, mem_trail_append]
      exact .inl hm
    simp only [(h.mono hway).locate]

/-- The entry at what a path names, where the ways agree. -/
theorem Agree.target (h : Agree (way t.current p) t u) :
    u.get? (Location.target t.current p) = t.get? (Location.target t.current p) :=
  h.get? _ (target_mem_way _ _)

theorem Agree.read (h : Agree (way t.current p) t u) : u.read p = t.read p := by
  unfold FileTree.read
  rw [h.locate]
  cases hl : t.locate p with
  | error e => rfl
  | ok l =>
    obtain rfl := eq_target_of_locate hl
    dsimp only [bind, Except.bind]
    rw [h.target]

/-- Writing to a file fails alike in both trees, or puts the same entry into both. -/
theorem Agree.write (h : Agree (way t.current p) t u) (content : List UInt8) :
    (∃ e, t.write p content = .error e ∧ u.write p content = .error e) ∨
      t.get? (Location.target t.current p) ≠ some .directory ∧
      t.write p content = .ok (t.put (Location.target t.current p) (.file content)) ∧
      u.write p content = .ok (u.put (Location.target t.current p) (.file content)) := by
  rw [write_eq, write_eq, h.locateFile]
  cases hl : t.locateFile p with
  | error e => exact .inl ⟨e, rfl, rfl⟩
  | ok l =>
    obtain rfl := eq_target_of_locateFile hl
    simp only [h.target]
    by_cases hd : t.get? (Location.target t.current p) = some .directory
    · exact .inl ⟨.isDirectory, by simp [hd]⟩
    · exact .inr ⟨hd, by simp [hd]⟩

end FileTree
end IndentMarkup
