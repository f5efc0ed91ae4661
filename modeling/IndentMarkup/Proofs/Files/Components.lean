import IndentMarkup.Proofs.Files.Path

/-! The components of a path: what stays of them when the path is trimmed, cut at its file name,
taken relative to another path or joined to one. -/
namespace IndentMarkup.Path

/-- The component that only the front of a path can give, a root or a single dot. -/
def leading : Path → List Component
  | '/' :: _ => [.root]
  | ['.'] => [.current]
  | '.' :: '/' :: _ => [.current]
  | _ => []

/-- A text that a part can follow: nothing, or one that ends in a slash. -/
def IsFront (x : Path) : Prop :=
  x = [] ∨ ∃ y, x = y ++ ['/']

@[simp] theorem bodyComponents_nil : bodyComponents [] = [] := rfl

theorem bodyComponents_append_slash (a b : Path) :
    bodyComponents (a ++ '/' :: b) = bodyComponents a ++ bodyComponents b := by
  rw [bodyComponents, parts_append_slash, List.filterMap_append]
  rfl

@[simp] theorem bodyComponents_slash (p : Path) : bodyComponents ('/' :: p) = bodyComponents p :=
  bodyComponents_append_slash [] p

theorem bodyComponents_of_notMem {n : Text} (h : '/' ∉ n) :
    bodyComponents n = (partComponent? n).toList := by
  rw [bodyComponents, parts_of_notMem h]
  cases hc : partComponent? n <;> simp [hc]

theorem components_eq (p : Path) : p.components = p.leading ++ p.bodyComponents := by
  fun_cases components p with
  | case1 p => simp [leading]
  | case2 => rfl
  | case3 p => exact congrArg _ (bodyComponents_append_slash ['.'] p).symm
  | case4 p h₁ h₂ h₃ => rw [leading.eq_4 p h₁ h₂ h₃, List.nil_append]

theorem leading_append_slash {a : Path} (h : a ≠ []) (b : Path) :
    leading (a ++ '/' :: b) = leading a := by
  fun_cases leading a with
  | case1 => rfl
  | case2 => rfl
  | case3 => rfl
  | case4 _ h₁ h₂ h₃ =>
    apply leading.eq_4
    · intro r hr
      obtain ⟨c, a, rfl⟩ := List.exists_cons_of_ne_nil h
      exact h₁ a (by rw [(List.cons.inj hr).1])
    · intro hr
      have hlen := congrArg List.length hr
      have hpos := List.length_pos_iff.mpr h
      simp only [List.length_append, List.length_cons, List.length_nil] at hlen
      omega
    · intro r hr
      rcases a with _ | ⟨c, _ | ⟨d, a⟩⟩ <;> simp_all

theorem components_append_slash {a : Path} (h : a ≠ []) (b : Path) :
    components (a ++ '/' :: b) = components a ++ bodyComponents b := by
  rw [components_eq, components_eq, leading_append_slash h, bodyComponents_append_slash,
    List.append_assoc]

/-- Behind a front, a path adds the components of its parts. -/
theorem components_append {x b : Path} (hx : IsFront x) (hb : x = [] → b.leading = []) :
    components (x ++ b) = components x ++ bodyComponents b := by
  obtain rfl | ⟨y, rfl⟩ := hx
  · rw [List.nil_append, components_eq, hb rfl]
    rfl
  · rw [List.append_assoc, List.singleton_append]
    by_cases hy : y = []
    · rw [hy]
      exact congrArg _ (List.nil_append _)
    · rw [components_append_slash hy, components_append_slash hy, bodyComponents_nil,
        List.append_nil]

theorem partComponent?_eq_none_iff {n : Text} : partComponent? n = none ↔ n = [] ∨ n = ['.'] := by
  grind [partComponent?]

/-- A path without a root or a dot at its front is empty or starts with a part that counts. -/
theorem exists_first_part {p : Path} (h : p.leading = []) (hne : p ≠ []) :
    ∃ c, p.bodyComponents = c :: bodyComponents (p.dropWhile (· != '/')) := by
  have hp : p.takeWhile (· != '/') ++ p.dropWhile (· != '/') = p :=
    List.takeWhile_append_dropWhile
  have hslash : '/' ∉ p.takeWhile (· != '/') := by
    intro hm
    simpa using List.mem_takeWhile_imp hm
  have hend := List.head?_dropWhile_not (· != '/') p
  generalize p.takeWhile (· != '/') = n at hp hslash
  generalize p.dropWhile (· != '/') = rest at hp hend ⊢
  have hrest : rest = [] ∨ ∃ r, rest = '/' :: r := by
    cases rest with
    | nil => exact .inl rfl
    | cons d r => exact .inr ⟨r, by simpa using hend⟩
  have hpart : partComponent? n ≠ none := by
    rw [Ne, partComponent?_eq_none_iff]
    rintro (rfl | rfl) <;> obtain rfl | ⟨r, rfl⟩ := hrest <;> subst hp <;> simp_all [leading]
  obtain ⟨c, hc⟩ := Option.ne_none_iff_exists'.mp hpart
  have hbody : bodyComponents n = [c] := by
    rw [bodyComponents_of_notMem hslash, hc]
    rfl
  refine ⟨c, ?_⟩
  obtain rfl | ⟨r, rfl⟩ := hrest
  · rw [← hp, List.append_nil, hbody, bodyComponents_nil]
  · rw [← hp, bodyComponents_append_slash, hbody, bodyComponents_slash]
    rfl

theorem components_ne_nil {p : Path} (h : p ≠ []) : p.components ≠ [] := by
  rw [components_eq]
  by_cases hl : p.leading = []
  · obtain ⟨c, hc⟩ := exists_first_part hl h
    simp [hc]
  · simp [hl]

theorem leading_skipBack {r : Path} (h : skipBack r ≠ []) :
    leading r.reverse = leading (skipBack r).reverse := by
  have hne {r : Path} (h : skipBack r ≠ []) : r.reverse ≠ [] := by
    intro hr
    exact h (List.suffix_nil.mp (List.reverse_eq_nil_iff.mp hr ▸ skipBack_suffix r))
  fun_induction skipBack r with
  | case1 r ih => rw [List.reverse_cons, leading_append_slash (hne h), ih h]
  | case2 r ih =>
    rw [List.reverse_cons, List.reverse_cons, List.append_assoc, List.singleton_append,
      leading_append_slash (hne h), ih h]
  | case3 r => rfl

theorem bodyComponents_dropTail (p : Path) : p.dropTail.bodyComponents = p.bodyComponents := by
  obtain ⟨blanks, hb, h⟩ := exists_parts_dropTail p
  rw [bodyComponents, bodyComponents, h, List.filterMap_append, List.filterMap_eq_nil_iff.mpr hb,
    List.append_nil]

theorem leading_dropTail {p : Path} (h : p.dropTail ≠ []) : p.dropTail.leading = p.leading := by
  have hr := leading_skipBack (r := p.reverse) (by simpa [dropTail] using h)
  rw [List.reverse_reverse] at hr
  exact hr.symm

theorem components_dropTail {p : Path} (h : p.dropTail ≠ []) :
    p.dropTail.components = p.components := by
  rw [components_eq, components_eq p, leading_dropTail h, bodyComponents_dropTail]

theorem leading_of_isAbsolute {p : Path} (h : p.isAbsolute = true) : p.leading = [.root] := by
  obtain ⟨r, rfl⟩ : ∃ r, p = '/' :: r := by simpa [isAbsolute, List.head?_eq_some_iff] using h
  rfl

theorem components_trimTail (p : Path) : p.trimTail.components = p.components := by
  by_cases ht : p.dropTail = []
  · by_cases hp : p = []
    · rw [hp]
      rfl
    · have ha := isAbsolute_of_dropTail_eq_nil ht hp
      rw [trimTail, ht, ha, components_eq p, leading_of_isAbsolute ha, ← bodyComponents_dropTail,
        ht]
      rfl
  · rw [trimTail, if_neg (by simp [ht]), components_dropTail ht]

/-- Trimming the end of a path that starts with a part that counts. -/
theorem components_dropTail_of_leading {p : Path} (h : p.leading = []) :
    p.dropTail.components = p.components ∧ p.dropTail.leading = [] := by
  by_cases ht : p.dropTail = []
  · have hp : p = [] := by
      by_contra hp
      simp [leading_of_isAbsolute (isAbsolute_of_dropTail_eq_nil ht hp)] at h
    rw [hp]
    exact ⟨rfl, rfl⟩
  · exact ⟨components_dropTail ht, (leading_dropTail ht).trans h⟩

theorem leading_skipFront (p : Path) : (skipFront p).leading = [] := by
  fun_induction skipFront p with
  | case1 p ih => exact ih
  | case2 p ih => exact ih
  | case3 => rfl
  | case4 p h₁ h₂ h₃ => exact leading.eq_4 p h₁ h₃ h₂

theorem bodyComponents_skipFront (p : Path) : (skipFront p).bodyComponents = p.bodyComponents := by
  fun_induction skipFront p with
  | case1 p ih => rw [ih, bodyComponents_slash]
  | case2 p ih => exact ih.trans (bodyComponents_append_slash ['.'] p).symm
  | case3 => rfl
  | case4 p => rfl

theorem leading_dropBody (n : Nat) (p : Path) : (dropBody n p).leading = [] := by
  induction n generalizing p with
  | zero => exact leading_skipFront p
  | succ n ih => exact ih _

theorem bodyComponents_dropBody (n : Nat) (p : Path) :
    (dropBody n p).bodyComponents = p.bodyComponents.drop n := by
  induction n generalizing p with
  | zero => exact bodyComponents_skipFront p
  | succ n ih =>
    rw [dropBody, ih, ← bodyComponents_skipFront p]
    by_cases hs : skipFront p = []
    · simp [hs]
    · obtain ⟨c, hc⟩ := exists_first_part (leading_skipFront p) hs
      rw [hc, List.drop_succ_cons]

theorem components_dropTail_dropBody (n : Nat) (p : Path) :
    (dropTail (dropBody n p)).components = p.bodyComponents.drop n ∧
      (dropTail (dropBody n p)).leading = [] := by
  obtain ⟨hc, hl⟩ := components_dropTail_of_leading (leading_dropBody n p)
  rw [hc, components_eq, leading_dropBody, bodyComponents_dropBody]
  exact ⟨rfl, hl⟩

/-- What is left of a path after its first components has the others, and no root or dot at its front
unless it is the whole path. -/
theorem components_dropComponents (n : Nat) (p : Path) :
    (dropComponents n p).components = p.components.drop n ∧
      (n ≠ 0 → (dropComponents n p).leading = []) := by
  fun_cases dropComponents n p with
  | case1 p => exact ⟨components_trimTail p, fun h => absurd rfl h⟩
  | case2 n p =>
    obtain ⟨hc, hl⟩ := components_dropTail_dropBody n p
    exact ⟨hc, fun _ => hl⟩
  | case3 n =>
    obtain ⟨hc, hl⟩ := components_dropTail_dropBody n []
    exact ⟨hc, fun _ => hl⟩
  | case4 n p =>
    obtain ⟨hc, hl⟩ := components_dropTail_dropBody n p
    exact ⟨hc, fun _ => hl⟩
  | case5 n p h₁ h₂ h₃ =>
    obtain ⟨hc, hl⟩ := components_dropTail_dropBody (n + 1) p
    rw [components_eq p, leading.eq_4 p h₁ h₂ h₃]
    exact ⟨hc, fun _ => hl⟩

/-- A path relative to one whose components come first in it has the components that follow. -/
theorem exists_relativeTo? {p base : Path} {more : List Component}
    (h : p.components = base.components ++ more) :
    ∃ rel, p.relativeTo? base = some rel ∧ rel.components = more ∧
      (base ≠ [] → rel.leading = []) := by
  obtain ⟨hc, hl⟩ := components_dropComponents base.components.length p
  refine ⟨_, if_pos (by simp [h]), ?_, ?_⟩
  · rw [hc, h, List.drop_left]
  · intro hb
    exact hl (by simpa using components_ne_nil hb)

/-- A path with nothing but parts, joined to another, comes behind it. -/
theorem components_join {base p : Path} (h : p.leading = []) :
    (join base p).components = base.components ++ p.components := by
  have ha : p.isAbsolute = false := by
    by_contra ha
    simp [leading_of_isAbsolute (by simpa using ha)] at h
  have hp : p.components = p.bodyComponents := by rw [components_eq, h, List.nil_append]
  rw [join, if_neg (by simp [ha]), hp]
  split
  · next hb =>
    refine components_append ?_ fun _ => h
    simpa [IsFront, List.getLast?_eq_some_iff] using hb
  · next hb =>
    refine components_append_slash ?_ p
    rintro rfl
    simp at hb

end IndentMarkup.Path
