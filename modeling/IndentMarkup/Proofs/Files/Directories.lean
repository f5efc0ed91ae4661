import IndentMarkup.Proofs.Files.Walk

/-! Making a directory with those it stands in. What comes of it depends only on the entries on the
way. Where no plain file is among these, it depends on the names alone: it does not matter which of
the directories have been made before. -/
namespace IndentMarkup
namespace FileTree
open FileStore Location IndentMarkup.Path

variable {t t' t'' u u' : FileTree} {l m : Location} {p q : Path} {places : List Location}

/-- A tree with directories where there was nothing at some places. -/
structure Adds (places : List Location) (t t' : FileTree) : Prop where
  current : t'.current = t.current
  get? : ∀ m, t'.get? m =
    if m ∈ places ∧ t.get? m = none then some .directory else t.get? m

theorem Adds.refl (h : ∀ m ∈ places, t.get? m ≠ none) : Adds places t t :=
  ⟨rfl, fun m => (if_neg fun hm => h m hm.1 hm.2).symm⟩

theorem Adds.trans {more : List Location} (h : Adds places t t') (h' : Adds more t' t'') :
    Adds (places ++ more) t t'' := by
  refine ⟨h'.current.trans h.current, fun m => ?_⟩
  have hm := h.get? m
  have hm' := h'.get? m
  grind

theorem Adds.congr {others : List Location} (h : Adds places t t')
    (hsame : ∀ m, t.get? m = none → (m ∈ places ↔ m ∈ others)) : Adds others t t' := by
  refine ⟨h.current, fun m => ?_⟩
  have hm := h.get? m
  have := hsame m
  grind

theorem Adds.clear {others : List Location} (h : Adds places t t') (hclear : t.Clear others) :
    t'.Clear others := by
  intro m hm
  have := hclear m hm
  have := h.get? m
  grind

theorem adds_put (h : t.get? l = none) : Adds [l] t (t.put l .directory) := by
  have hroot : l ≠ [] := ne_root_of_get? (t := t) (by simp [h])
  refine ⟨rfl, fun m => ?_⟩
  rw [get?_put hroot]
  grind

/-- One attempt at making a directory, which may be there already. -/
def attempt (t : FileTree) (p : Path) : Except FileError Unit × FileTree :=
  match t.makeDirectory p with
  | .ok u => (.ok (), u)
  | .error e => (if ((isDirectory p : StateM FileTree _).run t).1 then .ok () else .error e, t)

theorem run_attempt (p : Path) (t : FileTree) :
    (do
      match ← (FileStore.makeDirectory p : StateM FileTree _) with
      | .ok () => return .ok ()
      | .error e => return if ← isDirectory p then .ok () else .error e :
      StateM FileTree (Except FileError Unit)).run t = t.attempt p := by
  rw [run_bind_eq, run_makeDirectory, attempt]
  cases t.makeDirectory p <;> rfl

theorem run_makeOutwards_of_notFound (hp : p ≠ []) (h : t.makeDirectory p = .error .notFound)
    (outer : List Path) :
    (makeOutwards (p :: outer) : StateM FileTree _).run t =
      match (makeOutwards outer : StateM FileTree _).run t with
      | (.error e, u) => (.error e, u)
      | (.ok (), u) => u.attempt p := by
  have hempty : p.isEmpty = false := by simpa using hp
  rw [makeOutwards, hempty, if_neg (by simp), run_bind_eq, run_makeDirectory, h]
  dsimp only
  rw [run_bind_eq]
  generalize (makeOutwards outer : StateM FileTree _).run t = made
  obtain ⟨result, u⟩ := made
  cases result with
  | error e => rfl
  | ok => exact run_attempt p u

theorem run_makeOutwards_of_ne (hp : p ≠ []) (h : t.makeDirectory p ≠ .error .notFound)
    (outer : List Path) :
    (makeOutwards (p :: outer) : StateM FileTree _).run t = t.attempt p := by
  have hempty : p.isEmpty = false := by simpa using hp
  rw [makeOutwards, hempty, if_neg (by simp), run_bind_eq, run_makeDirectory, attempt]
  cases hm : t.makeDirectory p with
  | ok u => rfl
  | error e => cases e <;> first | rfl | exact absurd hm h

theorem run_isDirectory (p : Path) (t : FileTree) :
    (isDirectory p : StateM FileTree _).run t =
      (match t.locate p with
        | .error _ => false
        | .ok l => t.get? l = some .directory, t) := by
  change (decide ((t.locate p).toOption.bind _ = some FileKind.directory), t) = _
  cases t.locate p with
  | error e => rfl
  | ok l =>
    cases h : t.get? l with
    | none => simp [Except.toOption, h]
    | some e => cases e <;> simp [Except.toOption, h, FileEntry.kind]

theorem Agree.adds {added : List Location} (h : Agree places t u) (ht : Adds added t t')
    (hu : Adds added u u') : Agree places t' u' := by
  refine ⟨?_, fun m hm => ?_⟩
  · rw [ht.current, hu.current, h.current]
  · rw [ht.get?, hu.get?, h.get? m hm]

/-- A computation that looks at some places only, and adds directories only there. Trees that agree
at these places give the same result, with the same directories added. -/
def Local {α : Type} (current : Location) (places : List Location) (x : StateM FileTree α) : Prop :=
  ∀ t u : FileTree, t.current = current → Agree places t u →
    ∃ added, added ⊆ places ∧ (x.run u).1 = (x.run t).1 ∧
      Adds added t (x.run t).2 ∧ Adds added u (x.run u).2

namespace Local

variable {α β : Type} {c : Location}

theorem of_unchanged {x : StateM FileTree α} (hx : ∀ t, (x.run t).2 = t)
    (h : ∀ t u : FileTree, t.current = c → Agree places t u → (x.run u).1 = (x.run t).1) :
    Local c places x := by
  intro t u hc hagree
  refine ⟨[], List.nil_subset _, h t u hc hagree, ?_, ?_⟩
  · rw [hx]
    exact .refl nofun
  · rw [hx]
    exact .refl nofun

theorem pure (a : α) : Local c places (Pure.pure a : StateM FileTree α) :=
  of_unchanged (fun _ => rfl) fun _ _ _ _ => rfl

theorem bind {x : StateM FileTree α} {f : α → StateM FileTree β} (hx : Local c places x)
    (hf : ∀ a, Local c places (f a)) : Local c places (x >>= f) := by
  intro t u hc hagree
  obtain ⟨added, hsub, hresult, ht, hu⟩ := hx t u hc hagree
  have hc' : (x.run t).2.current = c := ht.current.trans hc
  obtain ⟨more, hsub', hresult', ht', hu'⟩ := hf (x.run t).1 _ _ hc' (hagree.adds ht hu)
  refine ⟨added ++ more, List.append_subset.mpr ⟨hsub, hsub'⟩, ?_, ht.trans ht', ?_⟩
  · rw [run_bind_eq, run_bind_eq, hresult, hresult']
  · rw [run_bind_eq, hresult]
    exact hu.trans hu'

theorem isDirectory (hp : way c p ⊆ places) :
    Local c places (FileStore.isDirectory p : StateM FileTree _) := by
  apply of_unchanged
  · intro t
    rw [run_isDirectory]
  · rintro t u rfl hagree
    have hway := hagree.mono hp
    rw [run_isDirectory, run_isDirectory, hway.locate]
    cases hl : t.locate p with
    | error e => rfl
    | ok l =>
      obtain rfl := eq_target_of_locate hl
      simp only [hway.target]

theorem makeDirectory (hp : way c p ⊆ places) :
    Local c places (FileStore.makeDirectory p : StateM FileTree _) := by
  rintro t u rfl hagree
  have hway := hagree.mono hp
  rw [run_makeDirectory, run_makeDirectory, makeDirectory_eq, makeDirectory_eq, hway.locate]
  have hnone {result : Except FileError Unit} : ∃ added, added ⊆ places ∧ result = result ∧
      Adds added t t ∧ Adds added u u :=
    ⟨[], List.nil_subset _, rfl, .refl nofun, .refl nofun⟩
  cases hl : t.locate p with
  | error e => exact hnone
  | ok l =>
    obtain rfl := eq_target_of_locate hl
    dsimp only
    rw [hway.target]
    cases ht : t.get? (target t.current p) with
    | some e => exact hnone
    | none =>
      refine ⟨[target t.current p], ?_, rfl, adds_put ht, adds_put (hway.target.trans ht)⟩
      exact List.cons_subset.mpr ⟨hp (target_mem_way _ _), List.nil_subset _⟩

theorem makeOutwards {paths : List Path} (h : ∀ p ∈ paths, way c p ⊆ places) :
    Local c places (FileStore.makeOutwards paths : StateM FileTree _) := by
  induction paths with
  | nil => exact pure _
  | cons p outer ih =>
    have hp := h p (by simp)
    have unlessDirectory (e : FileError) : Local c places
        (do return if ← FileStore.isDirectory p then .ok () else .error e :
          StateM FileTree (Except FileError Unit)) :=
      (isDirectory hp).bind fun _ => pure _
    rw [FileStore.makeOutwards]
    split
    · exact pure _
    · refine (makeDirectory hp).bind fun result => ?_
      split
      · exact pure _
      · refine (ih fun q hq => h q (by simp [hq])).bind fun made => ?_
        split
        · exact pure _
        · refine (makeDirectory hp).bind fun again => ?_
          split
          · exact pure _
          · exact unlessDirectory _
      · exact unlessDirectory _

end Local

theorem way_subset_of_mem_ancestors {c : Location} {a : Path} (h : a ∈ p.ancestors) :
    way c a ⊆ way c p := by
  induction p using parent_induction with
  | step p ih =>
    cases hq : p.parent? with
    | none =>
      rw [ancestors_of_parent?_eq_none hq, List.mem_singleton] at h
      rw [h]
      exact List.Subset.refl _
    | some q =>
      rw [ancestors_of_parent? hq, List.mem_cons] at h
      obtain rfl | h := h
      · exact List.Subset.refl _
      · exact fun m hm => (mem_way_of_parent? hq).mpr (.inl (ih q hq h hm))

theorem local_makeDirectories (c : Location) (p : Path) :
    Local c (way c p) (makeDirectories p : StateM FileTree _) :=
  Local.makeOutwards fun _ => way_subset_of_mem_ancestors

theorem walk_of_locate (h : t.locate p = .ok l) :
    t.walk (start t.current p) p.parts = .ok l := by
  rw [locate_eq] at h
  cases hc : checkPath p with
  | error e => simp [hc, Except.bind] at h
  | ok => simpa [hc, Except.bind] using h

/-- An attempt that succeeds leaves directories on the whole way. -/
theorem directories_of_attempt (h : t.attempt p = (.ok (), t')) (hm : m ∈ way t.current p) :
    t'.get? m = some .directory := by
  unfold attempt at h
  rw [makeDirectory_eq, run_isDirectory] at h
  cases hl : t.locate p with
  | error e => simp [hl] at h
  | ok l =>
    have hway := (walk_eq_ok (walk_of_locate hl)).2 m hm
    cases hg : t.get? l with
    | none =>
      have hroot : l ≠ [] := ne_root_of_get? (t := t) (by simp [hg])
      simp only [hl, hg, Prod.mk.injEq, true_and] at h
      rw [← h, get?_put hroot]
      grind
    | some e =>
      simp only [hl, hg, Prod.mk.injEq] at h
      grind

theorem current_makeOutwards (paths : List Path) (t : FileTree) :
    ((makeOutwards paths : StateM FileTree _).run t).2.current = t.current := by
  have hlocal : Local t.current (paths.flatMap (way t.current))
      (makeOutwards paths : StateM FileTree _) :=
    Local.makeOutwards fun p hp m hm => List.mem_flatMap.mpr ⟨p, hp, hm⟩
  obtain ⟨_, -, -, hadds, -⟩ := hlocal t t rfl ⟨rfl, fun _ _ => rfl⟩
  exact hadds.current

/-- Where making directories succeeds, they are there. -/
theorem directories_of_makeOutwards {outer : List Path}
    (hstart : t.get? (start t.current p) = some .directory)
    (h : (makeOutwards (p :: outer) : StateM FileTree _).run t = (.ok (), t'))
    (hm : m ∈ way t.current p) : t'.get? m = some .directory := by
  by_cases hp : p = []
  · subst hp
    cases h
    rw [way, mem_trail_blanks (by simp [Blanks, parts, partComponent?])] at hm
    rw [hm, hstart]
  · by_cases hn : t.makeDirectory p = .error .notFound
    · rw [run_makeOutwards_of_notFound hp hn] at h
      split at h
      · cases h
      · next u hu =>
        have hc := current_makeOutwards outer t
        rw [hu] at hc
        exact directories_of_attempt h (hc ▸ hm)
    · rw [run_makeOutwards_of_ne hp hn] at h
      exact directories_of_attempt h hm

/-- What making directories comes to where no plain file is in the way. -/
def verdict (p : Path) : Except FileError Unit :=
  if p.parts.any tooLong then .error .nameTooLong else .ok ()

theorem attempt_of_clear (hcheck : checkPath p = .ok ()) (hclear : t.Clear (way t.current p))
    (hfound : t.walk (start t.current p) p.parts ≠ .error .notFound) :
    ∃ t', t.attempt p = (verdict p, t') ∧ Adds (reach (start t.current p) p.parts) t t' := by
  have hlocate : t.locate p = t.walk (start t.current p) p.parts := by
    rw [locate_eq, hcheck]
    rfl
  unfold attempt
  rw [makeDirectory_eq, run_isDirectory, hlocate]
  cases hw : t.walk (start t.current p) p.parts with
  | error e =>
    obtain rfl | rfl := hclear.walk_eq_error hw
    · exact absurd hw hfound
    · obtain ⟨hlong, hdirectories⟩ := walk_eq_nameTooLong hw
      refine ⟨t, by simp [verdict, hlong], .refl fun m hm => ?_⟩
      simp [hdirectories m hm]
  | ok l =>
    obtain ⟨hshort, hway⟩ := walk_eq_ok hw
    have hl : l ∈ way t.current p := eq_foldl_of_walk hw ▸ target_mem_way t.current p
    rw [reach_eq_trail hshort]
    obtain hg | hg := hclear l hl
    · refine ⟨t.put l .directory, by simp [hg, verdict, hshort], (adds_put hg).congr ?_⟩
      intro m hm
      rw [List.mem_singleton]
      constructor
      · rintro rfl
        exact hl
      · intro htrail
        have := hway m htrail
        grind
    · refine ⟨t, by simp [hg, verdict, hshort], .refl fun m hm => ?_⟩
      obtain rfl | hd := hway m hm
      · simp [hg]
      · simp [hd]

theorem checkPath_of_isPrefix (h : q <+: p) (hq : q ≠ []) (hp : checkPath p = .ok ()) :
    checkPath q = .ok () := by
  obtain ⟨r, rfl⟩ := h
  unfold checkPath at hp ⊢
  have hlength : (Text.utf8 q).length ≤ (Text.utf8 (q ++ r)).length := by
    simp [Text.utf8, List.flatMap_append]
  grind

theorem makeDirectory_eq_notFound (hcheck : checkPath p = .ok ()) :
    t.makeDirectory p = .error .notFound ↔
      t.walk (start t.current p) p.parts = .error .notFound := by
  rw [makeDirectory_eq, locate_eq, hcheck]
  change (match t.walk (start t.current p) p.parts with | .error e => _ | .ok l => _) = _ ↔ _
  cases t.walk (start t.current p) p.parts with
  | error e => simp
  | ok l =>
    dsimp only
    cases t.get? l <;> simp

theorem exists_parent?_of_notFound (hp : p.dropTail = p ∨ p = ['/']) (hnil : p ≠ [])
    (hw : t.walk (start t.current p) p.parts = .error .notFound) :
    ∃ q, p.parent? = some q ∧ p.dropTail = p := by
  obtain hp | rfl := hp
  · cases hq : p.parent? with
    | none => exact absurd (hp.symm.trans (dropTail_of_parent?_eq_none hq)) hnil
    | some q => exact ⟨q, rfl, hp⟩
  · have hroot : t.walk [] [[], []] = .ok [] :=
      walk_of_directories (by simp [trail, step, partComponent?, FileTree.get?]) rfl
    cases hroot.symm.trans hw

theorem walk_ne_notFound (hq : p.parent? = some q) (hp : p.dropTail = p)
    (hshort : q.parts.any tooLong = false)
    (hdirectories : ∀ m ∈ way t.current q, t.get? m = some .directory) :
    t.walk (start t.current p) p.parts ≠ .error .notFound := by
  obtain ⟨last, -, hwalk⟩ := walk_of_parent? hq hp
  have htarget := hdirectories _ (target_mem_way t.current q)
  have hfollow : t.walk (start t.current q) q.parts = .ok (target t.current q) :=
    walk_of_directories hdirectories hshort
  rw [hwalk, ← start_of_parent? hq, hfollow]
  change t.walk (target t.current q) [last] ≠ _
  rw [walk_cons, htarget]
  dsimp only
  split <;> nofun

/-- The directories of the parent come first. Then either a name on its way is too long, or there
is nothing left that could be missing. -/
theorem makeDirectories_of_parent? (hq : p.parent? = some q) (hp : p.dropTail = p) (hnil : p ≠ [])
    (hcheck : checkPath p = .ok ()) (hstart : t.get? (start t.current p) = some .directory)
    (hclear : t.Clear (way t.current p)) (hmissing : t.makeDirectory p = .error .notFound)
    (hu : (makeDirectories q : StateM FileTree _).run t = (verdict q, u))
    (hadds : Adds (reach (start t.current q) q.parts) t u) :
    ∃ t', (makeDirectories p : StateM FileTree _).run t = (verdict p, t') ∧
      Adds (reach (start t.current p) p.parts) t t' := by
  obtain ⟨last, hany, -⟩ := walk_of_parent? hq hp
  rw [makeDirectories] at hu ⊢
  rw [ancestors_of_parent? hq, run_makeOutwards_of_notFound hnil hmissing, hu]
  rw [start_of_parent? hq] at hadds
  cases hlong : q.parts.any tooLong with
  | true =>
    have hlongp : p.parts.any tooLong = true := by simp [hany, hlong]
    refine ⟨u, by simp [verdict, hlong, hlongp], ?_⟩
    rwa [reach_of_parent?_of_tooLong hq hp hlong]
  | false =>
    obtain ⟨outer, houter⟩ := exists_ancestors_eq q
    have hok : verdict q = .ok () := by simp [verdict, hlong]
    rw [hok] at hu ⊢
    rw [houter] at hu
    have hdirectories : ∀ m ∈ way u.current q, u.get? m = some .directory := by
      rw [hadds.current]
      exact fun m hm => directories_of_makeOutwards (start_of_parent? hq ▸ hstart) hu hm
    have hclear' := hadds.clear hclear
    rw [← hadds.current] at hclear'
    obtain ⟨t', hattempt, hadds'⟩ :=
      attempt_of_clear hcheck hclear' (walk_ne_notFound hq hp hlong hdirectories)
    refine ⟨t', hattempt, (hadds.trans hadds').congr fun m _ => ?_⟩
    rw [hadds.current, List.mem_append]
    constructor
    · rintro (hm | hm)
      · exact reach_of_parent? hq hp hlong hm
      · exact hm
    · exact .inr

/-- Where no plain file is in the way, all missing directories are made, up to the first name that
is longer than allowed. -/
theorem makeDirectories_of_clear (hp : p.dropTail = p ∨ p = ['/'])
    (hcheck : p = [] ∨ checkPath p = .ok ())
    (hstart : t.get? (start t.current p) = some .directory)
    (hclear : t.Clear (way t.current p)) :
    ∃ t', (makeDirectories p : StateM FileTree _).run t = (verdict p, t') ∧
      Adds (reach (start t.current p) p.parts) t t' := by
  induction p using parent_induction with
  | step p ih =>
    by_cases hnil : p = []
    · subst hnil
      refine ⟨t, rfl, .refl fun m hm => ?_⟩
      have hm := reach_subset_trail _ _ hm
      rw [mem_trail_blanks (by simp [Blanks, parts, partComponent?])] at hm
      simp [hm, hstart]
    have hcheck : checkPath p = .ok () := hcheck.resolve_left hnil
    by_cases hfound : t.walk (start t.current p) p.parts = .error .notFound
    · -- Something on the way is missing, so the parent is made first.
      obtain ⟨q, hq, hp⟩ := exists_parent?_of_notFound hp hnil hfound
      have hcheckq : q = [] ∨ checkPath q = .ok () := by
        by_cases hqnil : q = []
        · exact .inl hqnil
        · exact .inr (checkPath_of_isPrefix (parent?_isPrefix hq) hqnil hcheck)
      have hclearq : t.Clear (way t.current q) :=
        fun m hm => hclear m ((mem_way_of_parent? hq).mpr (.inl hm))
      obtain ⟨u, hu, hadds⟩ :=
        ih q hq (dropTail_of_parent? hq) hcheckq (start_of_parent? hq ▸ hstart) hclearq
      exact makeDirectories_of_parent? hq hp hnil hcheck hstart hclear
        ((makeDirectory_eq_notFound hcheck).mpr hfound) hu hadds
    · have hmissing := fun h => hfound ((makeDirectory_eq_notFound hcheck).mp h)
      obtain ⟨outer, houter⟩ := exists_ancestors_eq p
      rw [makeDirectories, houter, run_makeOutwards_of_ne hnil hmissing]
      exact attempt_of_clear hcheck hclear hfound

theorem makeDirectories_of_checkPath_eq_error {e : FileError} (hp : p ≠ [])
    (hcheck : checkPath p = .error e) (t : FileTree) :
    (makeDirectories p : StateM FileTree _).run t = (.error e, t) := by
  have hlocate : t.locate p = .error e := by
    rw [locate_eq, hcheck]
    rfl
  have hmake : t.makeDirectory p = .error e := by rw [makeDirectory_eq, hlocate]
  have hne : e ≠ .notFound := by
    unfold checkPath at hcheck
    grind
  obtain ⟨outer, houter⟩ := exists_ancestors_eq p
  rw [makeDirectories, houter, run_makeOutwards_of_ne hp (by simpa [hmake] using hne), attempt,
    hmake, run_isDirectory, hlocate]
  rfl

/-- A tree that may have directories in addition at some places. -/
structure Extends (places : List Location) (t u : FileTree) : Prop where
  current : u.current = t.current
  get? : ∀ m ∈ places, u.get? m = t.get? m ∨ t.get? m = none ∧ u.get? m = some .directory

theorem Extends.mono {fewer : List Location} (h : Extends places t u) (hf : fewer ⊆ places) :
    Extends fewer t u :=
  ⟨h.current, fun m hm => h.get? m (hf hm)⟩

theorem Extends.get?_start (h : Extends (way t.current p) t u)
    (hstart : t.get? (start t.current p) = some .directory) :
    u.get? (start u.current p) = some .directory := by
  have := h.get? _ (mem_trail_self (start t.current p) p.parts)
  rw [h.current]
  grind

theorem Extends.clear (h : Extends places t u) (hclear : t.Clear places) : u.Clear places := by
  intro m hm
  obtain h | h := h.get? m hm
  · rw [h]
    exact hclear m hm
  · exact .inr h.2

/-- Trees of which one has directories in addition on the way of a path lead to the same directories
on it, unless a plain file is there. -/
theorem exists_makeDirectories (hp : p.dropTail = p ∨ p = ['/'])
    (hstart : t.get? (start t.current p) = some .directory) (h : Extends (way t.current p) t u)
    (hclear : Agree (way t.current p) t u ∨ t.Clear (way t.current p)) :
    ∃ result t' u' added, (makeDirectories p : StateM FileTree _).run t = (result, t') ∧
      (makeDirectories p : StateM FileTree _).run u = (result, u') ∧ added ⊆ way t.current p ∧
      Adds added t t' ∧ Adds added u u' := by
  obtain hagree | hclear := hclear
  · obtain ⟨added, hsub, hresult, ht, hu⟩ := local_makeDirectories t.current p t u rfl hagree
    exact ⟨_, _, ((makeDirectories p : StateM FileTree _).run u).2, added, rfl,
      Prod.ext hresult rfl, hsub, ht, hu⟩
  · have hstartu := h.get?_start hstart
    have hclearu := h.clear hclear
    rw [← h.current] at hclearu
    by_cases hcheck : p = [] ∨ checkPath p = .ok ()
    · obtain ⟨t', ht, hadds⟩ := makeDirectories_of_clear hp hcheck hstart hclear
      obtain ⟨u', hu, haddsu⟩ := makeDirectories_of_clear hp hcheck hstartu hclearu
      rw [h.current] at haddsu
      exact ⟨_, t', u', _, ht, hu, reach_subset_trail _ _, hadds, haddsu⟩
    · rw [not_or] at hcheck
      cases he : checkPath p with
      | ok => exact absurd he hcheck.2
      | error e =>
        have hsame := makeDirectories_of_checkPath_eq_error hcheck.1 he
        exact ⟨_, t, u, [], hsame t, hsame u, List.nil_subset _, .refl nofun, .refl nofun⟩

theorem directories_of_makeDirectories (hstart : t.get? (start t.current p) = some .directory)
    (h : (makeDirectories p : StateM FileTree _).run t = (.ok (), t')) (hm : m ∈ way t.current p) :
    t'.get? m = some .directory := by
  obtain ⟨outer, houter⟩ := exists_ancestors_eq p
  rw [makeDirectories, houter] at h
  exact directories_of_makeOutwards hstart h hm

/-- Trees that agree on a file, and on the way to it as far as it matters: directories may have come
up there if no plain file stands in the way. -/
structure Alike (out : Path) (t u : FileTree) : Prop where
  wider : Extends (way t.current out) t u
  file : u.get? (target t.current out) = t.get? (target t.current out)
  clear : Agree (way t.current out) t u ∨ t.Clear (way t.current (out.parent?.getD []))

/-- After the directories for a file have been made, trees agree on the whole way to it if they
agree on the file itself. -/
theorem exists_makeDirectories_parent {out : Path}
    (hcurrent : t.get? t.current = some .directory) (h : Alike out t u) :
    ∃ result t' u' added,
      (makeDirectories (out.parent?.getD []) : StateM FileTree _).run t = (result, t') ∧
      (makeDirectories (out.parent?.getD []) : StateM FileTree _).run u = (result, u') ∧
      added ⊆ way t.current out ∧ Adds added t t' ∧ Adds added u u' ∧
      (result = .ok () → Agree (way t.current out) t' u') := by
  cases hq : out.parent? with
  | none =>
    refine ⟨.ok (), t, u, [], rfl, rfl, List.nil_subset _, .refl nofun, .refl nofun, fun _ => ?_⟩
    refine ⟨h.wider.current, fun m hm => ?_⟩
    rw [mem_way_of_parent?_eq_none hq hm, h.file]
  | some q =>
    have hclear := h.clear
    rw [hq] at hclear
    have hway : way t.current q ⊆ way t.current out :=
      fun m hm => (mem_way_of_parent? hq).mpr (.inl hm)
    have hstart : t.get? (start t.current q) = some .directory := by
      unfold start
      split
      · rfl
      · exact hcurrent
    have hwider := h.wider.mono hway
    have hstartu := hwider.get?_start hstart
    obtain ⟨result, t', u', added, ht, hu, hsub, haddst, haddsu⟩ :=
      exists_makeDirectories (dropTail_of_parent? hq) hstart hwider (hclear.imp (·.mono hway) id)
    refine ⟨result, t', u', added, ht, hu, fun m hm => hway (hsub hm), haddst, haddsu, ?_⟩
    rintro rfl
    refine ⟨by rw [haddst.current, haddsu.current, hwider.current], fun m hm => ?_⟩
    by_cases hm' : m ∈ way t.current q
    · rw [directories_of_makeDirectories hstart ht hm',
        directories_of_makeDirectories hstartu hu (hwider.current ▸ hm')]
    · obtain rfl : m = target t.current out := ((mem_way_of_parent? hq).mp hm).resolve_left hm'
      have hnot : target t.current out ∉ added := fun hin => hm' (hsub hin)
      rw [haddst.get?, haddsu.get?, if_neg (fun hin => hnot hin.1), if_neg (fun hin => hnot hin.1),
        h.file]

end FileTree
end IndentMarkup
