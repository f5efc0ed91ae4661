import IndentMarkup.Proofs.Files.Components
import IndentMarkup.Proofs.Text.Trim

/-! The file name of a path and its stem, and what becomes of the path under another extension. -/
namespace IndentMarkup.Path

variable {p x dir : Path} {n name stem ext : Text}

/-- A path cut at its file name. Slashes and single dots may stand behind the name. -/
structure Named (p dir : Path) (name : Text) : Prop where
  front : IsFront dir
  noSlash : '/' ∉ name
  counts : partComponent? name = some (.name name)
  path : p.dropTail = dir ++ name

/-- The stem of a path's file name. -/
def fileStem? (p : Path) : Option Text :=
  p.fileName?.map fun name => (splitExtension name).1

/-- Whether a path ends in two dots and an extension, as in `..x`. Without the extension, what is
left stands for the directory above. -/
def endsInDots (p : Path) : Bool :=
  match p.lastPart with
  | '.' :: '.' :: ext => !ext.isEmpty && !ext.contains '.'
  | _ => false

theorem endsInDots_iff :
    p.endsInDots = true ↔ ∃ ext, p.lastPart = '.' :: '.' :: ext ∧ ext ≠ [] ∧ '.' ∉ ext := by
  rw [endsInDots]
  split
  · next ext h => simp [h]
  · next h =>
    constructor
    · simp
    · rintro ⟨ext, he, -⟩
      exact absurd he (h ext)

/-- The text behind the last `c`. -/
theorem reverse_takeWhile_append {c : Char} {front back : Text} (hb : c ∉ back)
    (hf : front = [] ∨ ∃ y, front = y ++ [c]) :
    ((front ++ back).reverse.takeWhile (· != c)).reverse = back := by
  rw [List.reverse_append, Text.takeWhile_append_of_stop, List.reverse_reverse]
  · intro d hd
    have hne : d ≠ c := fun h => hb (h ▸ List.mem_reverse.mp hd)
    simpa using hne
  · obtain rfl | ⟨y, rfl⟩ := hf <;> simp

theorem lastPart_append (hx : IsFront x) (hn : '/' ∉ n) : lastPart (x ++ n) = n :=
  reverse_takeWhile_append hn hx

theorem dropTail_append (hn : '/' ∉ n) (hc : partComponent? n ≠ none) (x : Path) :
    dropTail (x ++ n) = x ++ n := by
  obtain ⟨hnil, hdot⟩ : n ≠ [] ∧ n ≠ ['.'] := by
    rwa [Ne, partComponent?_eq_none_iff, not_or] at hc
  have hback : skipBack (x ++ n).reverse = (x ++ n).reverse := by
    obtain ⟨m, c, rfl⟩ := (List.eq_nil_or_concat' n).resolve_left hnil
    apply skipBack.eq_3
    · intro r hr
      simp_all
    · intro r hr
      rcases List.eq_nil_or_concat' m with rfl | ⟨k, d, rfl⟩ <;> simp_all
  rw [dropTail, hback, List.reverse_reverse]

theorem leading_of_part (hn : '/' ∉ n) (hc : partComponent? n ≠ none) : leading n = [] := by
  rw [Ne, partComponent?_eq_none_iff, not_or] at hc
  apply leading.eq_4
  · rintro r rfl
    simp at hn
  · exact hc.2
  · rintro r rfl
    simp at hn

/-- A part behind a front adds one component. -/
theorem components_append_part {c : Component} (hx : IsFront x) (hn : '/' ∉ n)
    (hc : partComponent? n = some c) : components (x ++ n) = components x ++ [c] := by
  rw [components_append hx fun _ => leading_of_part hn (by simp [hc]), bodyComponents_of_notMem hn,
    hc]
  rfl

theorem splitName?_eq_some_iff : p.splitName? = some (dir, name) ↔ Named p dir name := by
  constructor
  · intro h
    obtain ⟨x, hx, hp, hslash, hfront⟩ := exists_eq_append_lastPart p.dropTail
    simp only [splitName?, hx] at h
    split at h
    · next m hm =>
      obtain ⟨rfl, rfl⟩ : x = dir ∧ m = name := by simpa using h
      have hname : m = lastPart p.dropTail := by grind [partComponent?]
      exact ⟨hfront, hname ▸ hslash, by rwa [← hname] at hm, by rwa [← hname] at hp⟩
    · cases h
  · intro h
    have htake : (dir ++ name).take ((dir ++ name).length - name.length) = dir := by simp
    simp only [splitName?, h.path, lastPart_append h.front h.noSlash, h.counts, htake]

theorem splitName?_parent (hx : IsFront x) : splitName? (x ++ ['.', '.']) = none := by
  have hn : '/' ∉ ['.', '.'] := by decide
  simp only [splitName?, dropTail_append hn (by decide) x, lastPart_append hx hn]
  rfl

namespace Named

theorem of_append (hx : IsFront x) (hn : '/' ∉ n) (hc : partComponent? n = some (.name n)) :
    Named (x ++ n) x n :=
  ⟨hx, hn, hc, dropTail_append hn (by simp [hc]) x⟩

theorem unique (h : Named p dir name) {dir' : Path} {name' : Text} (h' : Named p dir' name') :
    dir' = dir ∧ name' = name := by
  have hs := (splitName?_eq_some_iff.mpr h').symm.trans (splitName?_eq_some_iff.mpr h)
  simpa using hs

theorem name_ne_nil (h : Named p dir name) : name ≠ [] := by
  rintro rfl
  simpa [partComponent?] using h.counts

theorem fileName?_eq (h : Named p dir name) : p.fileName? = some name := by
  rw [Path.fileName?, splitName?_eq_some_iff.mpr h]
  rfl

theorem extension?_eq (h : Named p dir name) : p.extension? = (splitExtension name).2 := by
  rw [Path.extension?, h.fileName?_eq]
  rfl

theorem components_eq (h : Named p dir name) : p.components = dir.components ++ [.name name] := by
  have hne : p.dropTail ≠ [] := by
    rw [h.path]
    exact List.append_ne_nil_of_right_ne_nil dir h.name_ne_nil
  rw [← components_dropTail hne, h.path, components_append_part h.front h.noSlash h.counts]

/-- The parent of a named path has the components in front of the name. -/
theorem exists_parent? (h : Named p dir name) :
    ∃ q, p.parent? = some q ∧ q.components = dir.components := by
  refine ⟨trimTail dir, ?_, components_trimTail dir⟩
  simp [Path.parent?, h.path, lastPart_append h.front h.noSlash, h.name_ne_nil]

end Named

theorem splitExtension_of_notMem (h : '.' ∉ name) : splitExtension name = (name, none) := by
  have hafter := reverse_takeWhile_append h (.inl rfl)
  rw [List.nil_append] at hafter
  simp [splitExtension, hafter]

theorem splitExtension_append (stem : Text) (he : '.' ∉ ext) :
    splitExtension (stem ++ '.' :: ext) =
      if stem = [] then ('.' :: ext, none) else (stem, some ext) := by
  have hafter := reverse_takeWhile_append he (.inr ⟨stem, rfl⟩)
  rw [List.append_assoc, List.singleton_append] at hafter
  have hlen : (stem ++ '.' :: ext).length - ext.length - 1 = stem.length := by
    simp only [List.length_append, List.length_cons]
    omega
  have hne : ext.length ≠ (stem ++ '.' :: ext).length := by
    simp only [List.length_append, List.length_cons]
    omega
  simp only [splitExtension, hafter, hlen, List.take_left, hne, List.isEmpty_iff, false_or]
  split
  · next hs => rw [hs, List.nil_append]
  · rfl

/-- A name is its own stem, or a stem, a dot and an extension. -/
theorem splitExtension_cases (name : Text) :
    splitExtension name = (name, none) ∨
      ∃ stem ext, name = stem ++ '.' :: ext ∧ stem ≠ [] ∧ '.' ∉ ext ∧
        splitExtension name = (stem, some ext) := by
  by_cases hd : '.' ∈ name
  · obtain ⟨back, front, hr, hb⟩ := List.eq_append_cons_of_mem (List.mem_reverse.mpr hd)
    have hname : name = front.reverse ++ '.' :: back.reverse := by
      simpa using congrArg List.reverse hr
    have hext : '.' ∉ back.reverse := by simpa using hb
    have hsplit := splitExtension_append front.reverse hext
    rw [← hname] at hsplit
    split at hsplit
    · next hs =>
      left
      rw [hsplit, hname, hs, List.nil_append]
    · next hs => exact .inr ⟨_, _, hname, hs, hext, hsplit⟩
  · exact .inl (splitExtension_of_notMem hd)

theorem stem_subset (name : Text) : (splitExtension name).1 ⊆ name := by
  rcases splitExtension_cases name with hs | ⟨stem, ext, rfl, -, -, hs⟩ <;> simp [hs]

theorem stem_ne_nil (h : name ≠ []) : (splitExtension name).1 ≠ [] := by
  rcases splitExtension_cases name with hs | ⟨stem, ext, -, hstem, -, hs⟩ <;> simpa [hs]

theorem skipBack_drop {r : Path} {i : Nat} (h : i + (skipBack r).length ≤ r.length) :
    skipBack (r.drop i) = skipBack r := by
  fun_induction skipBack r generalizing i with
  | case1 r ih =>
    cases i with
    | zero => rw [List.drop_zero, skipBack]
    | succ i =>
      rw [List.length_cons] at h
      exact ih (by omega)
  | case2 r ih =>
    rcases i with _ | _ | i
    · rw [List.drop_zero, skipBack]
    · exact skipBack.eq_1 r
    · rw [List.length_cons, List.length_cons] at h
      exact ih (by omega)
  | case3 r h₁ h₂ =>
    obtain rfl : i = 0 := by omega
    rw [List.drop_zero, skipBack.eq_3 r h₁ h₂]

/-- Cutting off some of the slashes and dots at the end leaves the same path without them. -/
theorem dropTail_take {k : Nat} (h : k + p.dropTail.length ≤ p.length) :
    dropTail (p.take (p.length - k)) = p.dropTail := by
  have hk : p.length - (p.length - k) = k := by omega
  rw [dropTail, List.reverse_take, hk, skipBack_drop, dropTail]
  simpa [dropTail] using h

/-- The path less as many characters at its end as its extension has. -/
def clipped (p : Path) : Path :=
  p.take (p.length - (p.extension?.getD []).length)

theorem withExtension_of_some {e : Text} (h : p.clipped.splitName? = some (dir, name)) :
    p.withExtension e = dir ++ ((splitExtension name).1 ++ '.' :: e) := by
  unfold clipped at h
  delta withExtension
  dsimp only
  rw [h, ← List.append_assoc]

theorem withExtension_of_none {e : Text} (h : p.clipped.splitName? = none) :
    p.withExtension e = p.clipped := by
  unfold clipped at h ⊢
  delta withExtension
  dsimp only
  rw [h]

theorem partComponent?_eq_name_iff :
    partComponent? n = some (.name n) ↔ n ≠ [] ∧ n ≠ ['.'] ∧ n ≠ ['.', '.'] := by
  grind [partComponent?]

theorem partComponent?_stem (hs : stem ≠ []) (hd : stem = ['.'] → ext ≠ []) :
    partComponent? (stem ++ '.' :: ext) = some (.name (stem ++ '.' :: ext)) := by
  refine partComponent?_eq_name_iff.mpr ⟨by simp, ?_, ?_⟩
  · rcases stem with _ | ⟨c, stem⟩ <;> simp_all
  · rcases stem with _ | ⟨c, _ | ⟨d, stem⟩⟩ <;> simp_all

/-- Cutting as much off the end as `b` takes up leaves as much of `b` as stands behind it. -/
theorem take_length_sub {a b c : Text} (h : c.length ≤ b.length) :
    (a ++ b ++ c).take ((a ++ b ++ c).length - b.length) = a ++ b.take c.length := by
  have hlen : (a ++ b ++ c).length - b.length = a.length + c.length := by
    simp only [List.length_append]
    omega
  rw [hlen, List.append_assoc, List.take_length_add_append, List.take_append_of_le_length h]

namespace Named

/-- If less stands behind the name than the extension takes up, the cut reaches into the
extension. -/
theorem take_eq (h : Named p dir (stem ++ '.' :: ext)) {tail : Text} (hp : p.dropTail ++ tail = p)
    (ht : tail.length ≤ ext.length) :
    p.take (p.length - ext.length) = dir ++ (stem ++ '.' :: ext.take tail.length) := by
  have hsplit : p = (dir ++ (stem ++ ['.'])) ++ ext ++ tail := by
    rw [← hp, h.path]
    simp
  rw [hsplit, take_length_sub ht]
  simp

theorem of_endsInDots (h : p.endsInDots = true) :
    ∃ dir ext, '.' ∉ ext ∧ p.dropTail = p ∧ Named p dir (['.'] ++ '.' :: ext) := by
  obtain ⟨ext, hlast, hext, hdot⟩ := endsInDots_iff.mp h
  obtain ⟨x, -, hp, hslash, hfront⟩ := exists_eq_append_lastPart p
  rw [hlast] at hp hslash
  have hname : Named (x ++ '.' :: '.' :: ext) x ('.' :: '.' :: ext) :=
    of_append hfront hslash (partComponent?_stem (List.cons_ne_nil '.' []) fun _ => hext)
  rw [← hp] at hname
  exact ⟨x, ext, hdot, hname.path.trans hp.symm, hname⟩

theorem endsInDots (h : Named p dir (['.'] ++ '.' :: ext)) (hext : '.' ∉ ext)
    (hp : p.dropTail = p) : p.endsInDots = true := by
  have hlast : p.lastPart = '.' :: '.' :: ext := by
    rw [← hp, h.path, lastPart_append h.front h.noSlash]
    rfl
  refine endsInDots_iff.mpr ⟨ext, hlast, ?_, hext⟩
  rintro rfl
  simpa [partComponent?] using h.counts

/-- Where the path ends in two dots and an extension, the dots are left. -/
theorem withExtension_of_endsInDots (h : Named p dir name) (hd : p.endsInDots = true) (e : Text) :
    p.withExtension e = dir ++ ['.', '.'] ∧ (splitExtension name).1 = ['.'] := by
  obtain ⟨x, ext, hdot, hp, hx⟩ := of_endsInDots hd
  obtain ⟨rfl, rfl⟩ := h.unique hx
  have hsplit := splitExtension_append ['.'] hdot
  have hclipped : p.clipped = x ++ ['.', '.'] := by
    rw [clipped, h.extension?_eq, hsplit]
    exact h.take_eq ((List.append_nil _).trans hp) (Nat.zero_le _)
  have hnone : p.clipped.splitName? = none := by rw [hclipped, splitName?_parent h.front]
  rw [withExtension_of_none hnone, hclipped, hsplit]
  exact ⟨rfl, rfl⟩

/-- Otherwise the path that is cut short still has a file name, with the same stem. -/
theorem exists_clipped (h : Named p dir name) (hd : p.endsInDots = false) :
    ∃ name', Named p.clipped dir name' ∧ (splitExtension name').1 = (splitExtension name).1 := by
  unfold clipped
  rcases splitExtension_cases name with hs | ⟨stem, ext, rfl, hstem, hext, hs⟩
  · refine ⟨name, ?_, rfl⟩
    simpa [h.extension?_eq, hs] using h
  rw [h.extension?_eq, hs, Option.getD_some]
  by_cases hlong : ext.length + p.dropTail.length ≤ p.length
  · exact ⟨_, ⟨h.front, h.noSlash, h.counts, (dropTail_take hlong).trans h.path⟩, by rw [hs]⟩
  obtain ⟨tail, hp⟩ := dropTail_isPrefix p
  have htail : tail.length < ext.length := by
    have hlen := congrArg List.length hp
    rw [List.length_append] at hlen
    omega
  have hslash : '/' ∉ stem ++ '.' :: ext.take tail.length := by
    intro hm
    apply h.noSlash
    simp only [List.mem_append, List.mem_cons] at hm ⊢
    exact hm.imp_right (Or.imp_right List.mem_of_mem_take)
  -- The extension is cut off as a whole only if nothing stands behind it.
  have hrest : stem = ['.'] → ext.take tail.length ≠ [] := by
    rintro rfl hnil
    have hne : ext ≠ [] := List.ne_nil_of_length_pos (by omega)
    have hnone : tail = [] := by simpa [hne] using hnil
    rw [hnone, List.append_nil] at hp
    simp [h.endsInDots hext hp] at hd
  rw [h.take_eq hp htail.le]
  refine ⟨_, of_append h.front hslash (partComponent?_stem hstem hrest), ?_⟩
  rw [splitExtension_append stem (fun hm => hext (List.mem_of_mem_take hm)), if_neg hstem]

theorem withExtension_eq (h : Named p dir name) (hd : p.endsInDots = false) (e : Text) :
    p.withExtension e = dir ++ ((splitExtension name).1 ++ '.' :: e) := by
  obtain ⟨name', hname, hstem⟩ := h.exists_clipped hd
  rw [withExtension_of_some (splitName?_eq_some_iff.mpr hname), hstem]

end Named
end IndentMarkup.Path
