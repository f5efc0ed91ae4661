import Mathlib.Data.List.Infix
import Mathlib.Data.List.TakeWhile
import IndentMarkup.Files.Path

/-! A path and its parent, part by part. They differ in one part and in parts that say nothing. -/
namespace IndentMarkup.Path

/-- Parts that say nothing. -/
def Blanks (parts : List Text) : Prop :=
  ∀ part ∈ parts, partComponent? part = none

theorem Blanks.append {a b : List Text} (ha : Blanks a) (hb : Blanks b) : Blanks (a ++ b) :=
  List.forall_mem_append.mpr ⟨ha, hb⟩

theorem parts_ne_nil (p : Path) : p.parts ≠ [] := by
  fun_cases parts p <;> simp

theorem parts_append_slash (a b : Path) : parts (a ++ '/' :: b) = parts a ++ parts b := by
  induction a with
  | nil => simp [parts]
  | cons c a ih =>
    simp only [List.cons_append, parts, ih]
    split
    · rfl
    · cases h : parts a with
      | nil => exact absurd h (parts_ne_nil a)
      | cons part others => rfl

theorem parts_of_notMem {a : Path} (h : '/' ∉ a) : parts a = [a] := by
  induction a with
  | nil => rfl
  | cons c a ih => grind [parts]

theorem exists_parts_skipBack (r : Path) :
    ∃ blanks, Blanks blanks ∧ parts r.reverse = parts (skipBack r).reverse ++ blanks := by
  fun_induction skipBack r with
  | case1 r ih =>
    obtain ⟨blanks, hb, h⟩ := ih
    refine ⟨blanks ++ [[]], hb.append (by simp [Blanks, partComponent?]), ?_⟩
    rw [List.reverse_cons, parts_append_slash, h, List.append_assoc]
    rfl
  | case2 r ih =>
    obtain ⟨blanks, hb, h⟩ := ih
    refine ⟨blanks ++ [['.']], hb.append (by simp [Blanks, partComponent?]), ?_⟩
    rw [List.reverse_cons, List.reverse_cons, List.append_assoc, List.singleton_append,
      parts_append_slash, h, List.append_assoc]
    rfl
  | case3 r => exact ⟨[], by simp [Blanks], by simp⟩

/-- What is cut off the end of a path says nothing. -/
theorem exists_parts_dropTail (p : Path) :
    ∃ blanks, Blanks blanks ∧ p.parts = p.dropTail.parts ++ blanks := by
  simpa [dropTail] using exists_parts_skipBack p.reverse

theorem skipBack_suffix (r : Path) : skipBack r <:+ r := by
  fun_induction skipBack r with
  | case1 r ih => exact ih.trans (List.suffix_cons _ _)
  | case2 r ih => exact ih.trans ((List.suffix_cons _ _).trans (List.suffix_cons _ _))
  | case3 r => exact List.suffix_refl r

theorem dropTail_isPrefix (p : Path) : p.dropTail <+: p := by
  rw [← List.reverse_suffix, dropTail, List.reverse_reverse]
  exact skipBack_suffix _

theorem skipBack_skipBack (r : Path) : skipBack (skipBack r) = skipBack r := by
  fun_induction skipBack r with
  | case1 r ih => exact ih
  | case2 r ih => exact ih
  | case3 r h₁ h₂ => rw [skipBack.eq_3 r h₁ h₂]

theorem dropTail_dropTail (p : Path) : p.dropTail.dropTail = p.dropTail := by
  simp [dropTail, skipBack_skipBack]

theorem head?_skipBack (r : Path) : (skipBack r).head? ≠ some '/' := by
  fun_induction skipBack r with
  | case1 r ih => exact ih
  | case2 r ih => exact ih
  | case3 r h₁ h₂ =>
    intro h
    obtain ⟨r, rfl⟩ := List.head?_eq_some_iff.mp h
    exact h₁ r rfl

theorem isAbsolute_of_dropTail_eq_nil {p : Path} (h : p.dropTail = []) (hp : p ≠ []) :
    p.isAbsolute = true := by
  have (r : Path) (h : skipBack r = []) (hr : r ≠ []) : r.getLast? = some '/' := by
    fun_induction skipBack r with
    | case1 r ih => grind [skipBack]
    | case2 r ih => grind [skipBack]
    | case3 r => exact absurd h hr
  have hlast := this p.reverse (by simpa [dropTail] using h) (by simpa using hp)
  simpa [isAbsolute] using hlast

/-- The text before the last part is empty or ends in a slash. -/
theorem exists_eq_append_lastPart (p : Path) :
    ∃ x, p.take (p.length - (lastPart p).length) = x ∧ p = x ++ lastPart p ∧ '/' ∉ lastPart p ∧
      (x = [] ∨ ∃ y, x = y ++ ['/']) := by
  have hsplit : p = (p.reverse.dropWhile (· != '/')).reverse ++ lastPart p := by
    rw [lastPart, ← List.reverse_append, List.takeWhile_append_dropWhile, List.reverse_reverse]
  refine ⟨(p.reverse.dropWhile (· != '/')).reverse, ?_, hsplit, ?_, ?_⟩
  · have htake {a b : Path} (h : p = a ++ b) : p.take (p.length - b.length) = a := by simp [h]
    exact htake hsplit
  · intro h
    have hne := List.mem_takeWhile_imp (List.mem_reverse.mp h)
    simp at hne
  · cases h : p.reverse.dropWhile (· != '/') with
    | nil => exact .inl rfl
    | cons c r =>
      have hc := List.head?_dropWhile_not (· != '/') p.reverse
      simp only [h, List.head?_cons] at hc
      right
      refine ⟨r.reverse, ?_⟩
      rw [List.reverse_cons]
      simpa using hc

theorem parent?_eq_some {p q : Path} (h : p.parent? = some q) :
    ∃ x last, p.dropTail = x ++ last ∧ last ≠ [] ∧ '/' ∉ last ∧
      (x = [] ∨ ∃ y, x = y ++ ['/']) ∧ q = trimTail x := by
  simp only [parent?] at h
  split at h
  · cases h
  · next hne =>
    obtain ⟨x, hx, hp, hslash, hend⟩ := exists_eq_append_lastPart p.dropTail
    rw [hx] at h
    refine ⟨x, lastPart p.dropTail, hp, ?_, hslash, hend, (Option.some.inj h).symm⟩
    intro hlast
    have hempty := head?_skipBack p.reverse
    rw [← List.getLast?_reverse] at hempty
    change p.dropTail.getLast? ≠ some '/' at hempty
    rw [hp, hlast, List.append_nil] at hempty hne
    obtain rfl | ⟨y, rfl⟩ := hend
    · simp at hne
    · simp at hempty

theorem dropTail_of_parent?_eq_none {p : Path} (h : p.parent? = none) : p.dropTail = [] := by
  simp only [parent?] at h
  grind

theorem trimTail_isPrefix (p : Path) : p.trimTail <+: p := by
  unfold trimTail
  split
  · next h =>
    simp only [Bool.and_eq_true, isAbsolute, decide_eq_true_eq, List.head?_eq_some_iff] at h
    obtain ⟨-, r, rfl⟩ := h
    exact ⟨r, rfl⟩
  · exact dropTail_isPrefix p

theorem parent?_isPrefix {p q : Path} (h : p.parent? = some q) : q <+: p := by
  obtain ⟨x, last, hp, -, -, -, rfl⟩ := parent?_eq_some h
  have hx : x <+: p.dropTail := ⟨last, hp.symm⟩
  exact (trimTail_isPrefix x).trans (hx.trans (dropTail_isPrefix p))

theorem length_parent? {p q : Path} (h : p.parent? = some q) : q.length < p.length := by
  obtain ⟨x, last, hp, hlast, -, -, rfl⟩ := parent?_eq_some h
  have hx := (trimTail_isPrefix x).length_le
  have hle := (dropTail_isPrefix p).length_le
  have hpos := List.length_pos_iff.mpr hlast
  rw [hp, List.length_append] at hle
  omega

/-- Induction from the parent of a path to the path. -/
theorem parent_induction {motive : Path → Prop}
    (step : ∀ p, (∀ q, p.parent? = some q → motive q) → motive p) (p : Path) : motive p := by
  induction hn : p.length using Nat.strongRecOn generalizing p with
  | ind n ih => exact step p fun q hq => ih q.length (hn ▸ length_parent? hq) q rfl

theorem ancestorsWithin_eq {p : Path} {n k : Nat} (hn : p.length ≤ n) (hk : p.length ≤ k) :
    ancestorsWithin n p = ancestorsWithin k p := by
  induction n generalizing p k with
  | zero =>
    obtain rfl := List.eq_nil_of_length_eq_zero (Nat.le_zero.mp hn)
    cases k <;> rfl
  | succ n ih =>
    cases k with
    | zero =>
      obtain rfl := List.eq_nil_of_length_eq_zero (Nat.le_zero.mp hk)
      rfl
    | succ k =>
      rw [ancestorsWithin, ancestorsWithin]
      cases hq : p.parent? with
      | none => rfl
      | some q =>
        have hlt := length_parent? hq
        rw [Option.map_some, Option.map_some, ih (k := k) (by omega) (by omega)]

theorem exists_ancestors_eq (p : Path) : ∃ outer, p.ancestors = p :: outer := by
  unfold ancestors
  cases p.length <;> exact ⟨_, rfl⟩

theorem ancestors_of_parent? {p q : Path} (h : p.parent? = some q) :
    p.ancestors = p :: q.ancestors := by
  have hlt := length_parent? h
  rw [ancestors, ancestorsWithin_eq (Nat.le_refl _) (Nat.le_succ _), ancestorsWithin, h,
    Option.map_some, Option.getD_some, ancestors,
    ancestorsWithin_eq (Nat.le_of_lt hlt) (Nat.le_refl _)]

theorem ancestors_of_parent?_eq_none {p : Path} (h : p.parent? = none) : p.ancestors = [p] := by
  unfold ancestors
  cases p.length with
  | zero => rfl
  | succ n => rw [ancestorsWithin, h, Option.map_none, Option.getD_none]

/-- A parent has no slashes or dots at its end, unless it is the root. -/
theorem dropTail_of_parent? {p q : Path} (h : p.parent? = some q) :
    q.dropTail = q ∨ q = ['/'] := by
  obtain ⟨x, last, -, -, -, -, rfl⟩ := parent?_eq_some h
  unfold trimTail
  split
  · exact .inr rfl
  · exact .inl (dropTail_dropTail x)

theorem exists_parts_trimTail (p : Path) :
    ∃ blanks, Blanks blanks ∧ p.trimTail.parts = p.dropTail.parts ++ blanks := by
  unfold trimTail
  split
  · next h =>
    simp only [Bool.and_eq_true, List.isEmpty_iff] at h
    refine ⟨[[]], by simp [Blanks, partComponent?], ?_⟩
    rw [h.1]
    rfl
  · exact ⟨[], by simp [Blanks], by simp⟩

/-- A path has one part more than its parent, apart from parts that say nothing. -/
theorem exists_parts_of_parent? {p q : Path} (h : p.parent? = some q) :
    ∃ shared inner outer last, Blanks inner ∧ Blanks outer ∧
      p.dropTail.parts = shared ++ inner ++ [last] ∧ q.parts = shared ++ outer := by
  obtain ⟨x, last, hp, -, hslash, hend, rfl⟩ := parent?_eq_some h
  rw [hp]
  obtain rfl | ⟨y, rfl⟩ := hend
  · exact ⟨[], [], [[]], last, by simp [Blanks], by simp [Blanks, partComponent?],
      by simp [parts_of_notMem hslash], rfl⟩
  · obtain ⟨outer, houter, hq⟩ := exists_parts_trimTail (y ++ ['/'])
    obtain ⟨blanks, hblanks, hx⟩ := exists_parts_dropTail (y ++ ['/'])
    rw [parts_append_slash] at hx
    rw [List.append_assoc, List.singleton_append, parts_append_slash, parts_of_notMem hslash, hq]
    -- The last part of what stands before the name is empty, so it is the last of the blanks.
    obtain rfl | ⟨blanks, b, rfl⟩ := blanks.eq_nil_or_concat
    · rw [List.append_nil] at hx
      refine ⟨y.parts, [], [[]] ++ outer, last, by simp [Blanks], ?_, by simp, ?_⟩
      · exact Blanks.append (by simp [Blanks, partComponent?]) houter
      · rw [← hx, ← List.append_assoc]
        rfl
    · rw [List.concat_eq_append, ← List.append_assoc] at hx
      have hy := List.append_inj_left' hx rfl
      refine ⟨(y ++ ['/']).dropTail.parts, blanks, outer, last, ?_, houter, by rw [hy], rfl⟩
      exact fun part hpart => hblanks part (by simp [hpart])

theorem isAbsolute_of_isPrefix {p q : Path} (h : q <+: p) (hq : q ≠ []) :
    q.isAbsolute = p.isAbsolute := by
  obtain ⟨r, rfl⟩ := h
  rw [isAbsolute, isAbsolute, List.head?_append_of_ne_nil _ hq]

theorem isAbsolute_of_parent? {p q : Path} (h : p.parent? = some q) :
    q.isAbsolute = p.isAbsolute := by
  by_cases hq : q = []
  · -- Only a path of one part has the empty path for a parent.
    obtain ⟨x, last, hp, hlast, hslash, -, hx⟩ := parent?_eq_some h
    have hdrop : x.dropTail = [] ∧ x.isAbsolute = false := by
      rw [hq, trimTail] at hx
      grind
    have hx : x = [] := by
      apply Classical.byContradiction
      intro hne
      simp [isAbsolute_of_dropTail_eq_nil hdrop.1 hne] at hdrop
    rw [hx, List.nil_append] at hp
    have hprefix := dropTail_isPrefix p
    rw [hp] at hprefix
    rw [← isAbsolute_of_isPrefix hprefix hlast, hq]
    cases last with
    | nil => rfl
    | cons c last =>
      have hc : c ≠ '/' := by grind
      simp [isAbsolute, hc]
  · exact isAbsolute_of_isPrefix (parent?_isPrefix h) hq

/-- The directory of a path that ends in slashes shares its parts with the path; a dot behind it is
a part that says nothing. -/
theorem exists_parts_aboveDirectory? {p dir : Path} (h : p.aboveDirectory? = some dir) :
    ∃ shared rest, p.parts = shared ++ rest ∧ (dir ++ ['.']).parts = shared ++ [['.']] ∧
      (dir ++ ['.']).isAbsolute = p.isAbsolute := by
  have hslashes : p = (p.reverse.dropWhile (· = '/')).reverse ++
      (p.reverse.takeWhile (· = '/')).reverse := by
    rw [← List.reverse_append, List.takeWhile_append_dropWhile, List.reverse_reverse]
  simp only [aboveDirectory?] at h
  generalize (p.reverse.dropWhile (· = '/')).reverse = q at h hslashes
  obtain ⟨x, hx, hq, hslash, hend⟩ := exists_eq_append_lastPart q
  rw [hx] at h
  have hname : lastPart q ≠ [] := by
    intro hnil
    simp [hnil, partComponent?] at h
  have hdir : dir = x := by grind
  generalize (p.reverse.takeWhile (· = '/')).reverse = slashes at hslashes
  rw [hq, List.append_assoc] at hslashes
  rw [hdir, hslashes]
  obtain rfl | ⟨y, rfl⟩ := hend
  · refine ⟨[], _, rfl, rfl, ?_⟩
    cases hc : lastPart q with
    | nil => exact absurd hc hname
    | cons c name =>
      have hne : c ≠ '/' := by grind
      simp [isAbsolute, hne]
  · refine ⟨parts y, parts (lastPart q ++ slashes), ?_, ?_, ?_⟩
    · rw [List.append_assoc, List.singleton_append, parts_append_slash]
    · rw [List.append_assoc, List.singleton_append, parts_append_slash]
      rfl
    · have hne : y ++ ['/'] ≠ [] := by simp
      exact (isAbsolute_of_isPrefix (List.prefix_append _ _) hne).symm.trans
        (isAbsolute_of_isPrefix (List.prefix_append _ _) hne)

end IndentMarkup.Path
