import IndentMarkup.Files.Tree

/-! What the operations of a file system may change. Nothing is said about when they fail: the laws
cover the state that an operation leaves behind whether it succeeds or not. -/
namespace IndentMarkup

theorem run_bind_eq {σ α β : Type} (x : StateM σ α) (f : α → StateM σ β) (s : σ) :
    (x >>= f).run s = (f (x.run s).1).run (x.run s).2 := rfl

theorem run_mapM_cons {σ α β : Type} (g : α → StateM σ β) (x : α) (xs : List α) (s : σ) :
    ((x :: xs).mapM g).run s =
      (((g x).run s).1 :: ((xs.mapM g).run ((g x).run s).2).1,
        ((xs.mapM g).run ((g x).run s).2).2) := by
  rw [List.mapM_cons]
  rfl

/-- Whatever state a computation starts in, it ends in a related one. -/
def Moves {σ α : Type} (R : σ → σ → Prop) (x : StateM σ α) : Prop :=
  ∀ s, R s (x.run s).2

namespace Moves

variable {σ α β : Type} {R : σ → σ → Prop}

theorem pure (refl : ∀ s, R s s) (a : α) : Moves R (Pure.pure a : StateM σ α) := refl

theorem bind (trans : ∀ {s s' s''}, R s s' → R s' s'' → R s s'') {x : StateM σ α}
    {f : α → StateM σ β} (hx : Moves R x) (hf : ∀ a, Moves R (f a)) : Moves R (x >>= f) :=
  fun s => trans (hx s) (hf _ _)

theorem mono {R' : σ → σ → Prop} {x : StateM σ α} (h : Moves R x)
    (hR : ∀ s s', R s s' → R' s s') : Moves R' x :=
  fun s => hR _ _ (h s)

end Moves

/-- How to see a map of entries in the states of a file system. A state may hold more than the map
shows. -/
structure FileView (σ : Type) where
  Place : Type
  entry : σ → Place → Option FileEntry
  /-- Whether a path names a place, be there something or not. -/
  Names : σ → Path → Place → Prop

namespace FileView

variable {σ : Type} (V : FileView σ)

/-- What a file holds at a place. -/
def content (s : σ) (l : V.Place) : Option (List UInt8) :=
  match V.entry s l with
  | some (.file bytes) => some bytes
  | _ => none

/-- States with the same entries, in which paths name the same places. -/
structure Same (s s' : σ) : Prop where
  entry : V.entry s' = V.entry s
  names : V.Names s' = V.Names s

/-- States in which files differ at allowed places only. Directories may have come up anywhere. -/
structure Within (allowed : V.Place → Prop) (s s' : σ) : Prop where
  content : ∀ l, V.content s' l ≠ V.content s l → allowed l
  names : V.Names s' = V.Names s

/-- States between which something may have been written to a path. -/
def Writes (p : Path) (s s' : σ) : Prop := V.Within (V.Names s p) s s'

/-- The operations change no more than they are for: looking changes nothing, a directory takes no
file's place, and writing to a path may change, for good or ill, only what the path names. -/
structure Lawful [FileStore (StateM σ)] : Prop where
  kind? (p : Path) : Moves V.Same (FileStore.kind? p)
  readBytes (p : Path) : Moves V.Same (FileStore.readBytes p)
  filesUnder (p : Path) : Moves V.Same (FileStore.filesUnder p)
  makeDirectory (p : Path) : Moves (V.Within fun _ => False) (FileStore.makeDirectory p)
  writeBytes (p : Path) (bytes : List UInt8) : Moves (V.Writes p) (FileStore.writeBytes p bytes)

variable {V} {s s' s'' : σ} {allowed : V.Place → Prop}

theorem Same.refl (s : σ) : V.Same s s := ⟨rfl, rfl⟩

theorem Same.trans (h : V.Same s s') (h' : V.Same s' s'') : V.Same s s'' :=
  ⟨h'.entry.trans h.entry, h'.names.trans h.names⟩

theorem Same.within (h : V.Same s s') : V.Within allowed s s' where
  content l hl := by
    have hsame : V.content s' l = V.content s l := by simp only [content, h.entry]
    exact absurd hsame hl
  names := h.names

theorem Within.refl (s : σ) : V.Within allowed s s := (Same.refl s).within

theorem Within.mono {wider : V.Place → Prop} (h : V.Within allowed s s')
    (hw : ∀ l, allowed l → wider l) : V.Within wider s s' :=
  ⟨fun l hl => hw l (h.content l hl), h.names⟩

theorem Within.trans (h : V.Within allowed s s') (h' : V.Within allowed s' s'') :
    V.Within allowed s s'' where
  content l hl := by
    by_cases hs : V.content s' l = V.content s l
    · apply h'.content l
      rwa [hs]
    · exact h.content l hs
  names := h'.names.trans h.names

theorem Writes.refl {p : Path} (s : σ) : V.Writes p s s := Within.refl s

theorem Writes.trans {p : Path} (h : V.Writes p s s') (h' : V.Writes p s' s'') :
    V.Writes p s s'' :=
  Within.trans h (h.names ▸ h')

end FileView

namespace FileStore
open FileView

variable {σ : Type} [FileStore (StateM σ)] {V : FileView σ}

theorem same_isDirectory (hV : V.Lawful) (p : Path) :
    Moves V.Same (isDirectory p : StateM σ Bool) :=
  .bind .trans (hV.kind? p) fun _ => .pure .refl _

theorem same_readText (hV : V.Lawful) (p : Path) :
    Moves V.Same (readText p : StateM σ (Except FileError Text)) := by
  apply Moves.bind .trans (hV.readBytes p)
  intro result
  cases result <;> exact .pure .refl _

/-- Making directories leaves all files as they are, also where it fails after it has made some. -/
theorem within_makeOutwards (hV : V.Lawful) (paths : List Path) :
    Moves (V.Within fun _ => False) (makeOutwards paths : StateM σ (Except FileError Unit)) := by
  have done (result : Except FileError Unit) :
      Moves (V.Within fun _ => False) (pure result : StateM σ (Except FileError Unit)) :=
    .pure .refl result
  have unlessDirectory (p : Path) (e : FileError) : Moves (V.Within fun _ => False)
      (do return if ← isDirectory p then .ok () else .error e :
        StateM σ (Except FileError Unit)) :=
    .bind .trans ((same_isDirectory hV p).mono fun _ _ => Same.within) fun _ => done _
  induction paths with
  | nil => exact done _
  | cons p outer ih =>
    rw [makeOutwards]
    split
    · exact done _
    · apply Moves.bind .trans (hV.makeDirectory p)
      intro result
      split
      · exact done _
      · apply Moves.bind .trans ih
        intro made
        split
        · exact done _
        · apply Moves.bind .trans (hV.makeDirectory p)
          intro again
          split
          · exact done _
          · exact unlessDirectory p _
      · exact unlessDirectory p _

end FileStore
end IndentMarkup
