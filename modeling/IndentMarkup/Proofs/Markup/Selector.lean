import IndentMarkup.Proofs.Markup.Fragments

/-! Selectors written out and read back. -/
namespace IndentMarkup.Selector

/-- A selector as it is written: the tag, the identifier behind `#`, each class behind a dot. -/
def print (s : Selector) : Text :=
  s.tag ++ (s.id.elim [] fun id => '#' :: id) ++ s.classes.flatMap fun name => '.' :: name

/-- A name that can stand in a selector: no blank ends it, and no marker starts a fragment in it. -/
def IsName (name : Text) : Prop :=
  ∀ c ∈ name, Text.isBlank c = false ∧ c ≠ '#' ∧ c ≠ '.'

instance (name : Text) : Decidable (IsName name) :=
  List.decidableBAll _ name

/-- A selector whose parts are names, and whose tag is not left out. -/
structure Printable (s : Selector) : Prop where
  tag_ne : s.tag ≠ []
  tag : IsName s.tag
  id : ∀ id ∈ s.id, IsName id
  classes : ∀ name ∈ s.classes, IsName name

theorem IsName.unmarked {name : Text} (h : IsName name) : Unmarked name :=
  fun c hc => (h c hc).2

/-- A selector that is written out is cut into its tag and its other parts. -/
def Printable.cut {s : Selector} (h : s.Printable) : Cut where
  head := s.tag
  fragments := (s.id.map Fragment.id).toList ++ s.classes.map .className
  unmarked_head := h.tag.unmarked
  unmarked_fragments := by
    intro f hf
    rcases List.mem_append.mp hf with hf | hf
    · obtain ⟨id, hid, rfl⟩ := Option.map_eq_some_iff.mp (Option.mem_toList.mp hf)
      exact (h.id id hid).unmarked
    · obtain ⟨name, hname, rfl⟩ := List.mem_map.mp hf
      exact (h.classes name hname).unmarked

theorem Printable.text_cut {s : Selector} (h : s.Printable) : h.cut.text = s.print := by
  have hclasses : (s.classes.map Fragment.className).flatMap Fragment.print =
      s.classes.flatMap fun name => '.' :: name := List.flatMap_map ..
  simp only [Cut.text, cut, List.flatMap_append, hclasses, print, List.append_assoc]
  cases s.id with
  | none => rfl
  | some id => simp [Fragment.print, Fragment.marker, Fragment.name]

theorem split_print {s : Selector} (h : s.Printable) :
    split s.print = (s.tag, (s.id.map Fragment.id).toList ++ s.classes.map .className) := by
  rw [← h.text_cut]
  exact h.cut.split_text

/-- Reading a selector that was written out gives it back. -/
theorem ofText_print {s : Selector} (h : s.Printable) : ofText s.print = s := by
  have hs := split_print h
  have hi : (s.classes.map Fragment.className).filterMap Fragment.id? = [] := by
    simp [List.filterMap_map, Fragment.id?, Function.comp_def]
  have hc : (s.classes.map Fragment.className).filterMap Fragment.className? = s.classes := by
    simp [List.filterMap_map, Fragment.className?, Function.comp_def]
  cases s with
  | mk tag id classes =>
    simp only [ofText, hs, List.filterMap_append, hi, hc]
    cases id with
    | none => simp [h.tag_ne]
    | some id => simp [h.tag_ne, Fragment.id?, Fragment.className?]

theorem print_no_blank {s : Selector} (h : s.Printable) :
    ∀ c ∈ s.print, Text.isBlank c = false := by
  intro c hc
  simp only [print, List.mem_append, List.mem_flatMap] at hc
  rcases hc with (hc | hc) | ⟨name, hn, hc⟩
  · exact (h.tag c hc).1
  · cases hi : s.id with
    | none => simp [hi] at hc
    | some id =>
      rcases List.mem_cons.mp (show c ∈ '#' :: id by simpa [hi] using hc) with rfl | hc
      · decide
      · exact (h.id id (by simp [hi]) c hc).1
  · rcases List.mem_cons.mp hc with rfl | hc
    · decide
    · exact (h.classes name hn c hc).1

/-- The names in a text that is split are made of its characters. -/
theorem split_subset (t : Text) : (split t).1 ⊆ t ∧ ∀ f ∈ (split t).2, f.name ⊆ t := by
  have hhead := List.subset_append_left (split t).1 ((split t).2.flatMap Fragment.print)
  have hmore := List.subset_append_right (split t).1 ((split t).2.flatMap Fragment.print)
  rw [text_split] at hhead hmore
  refine ⟨hhead, fun f hf c hc => hmore (List.mem_flatMap.mpr ⟨f, hf, ?_⟩)⟩
  exact List.mem_cons_of_mem _ hc

theorem tag_ofText_subset (t : Text) : (ofText t).tag ⊆ defaultTag ++ t := by
  simp only [ofText]
  split_ifs
  · exact List.subset_append_left _ _
  · exact List.subset_append_of_subset_right _ (split_subset t).1

theorem id_ofText_subset {t id : Text} (h : (ofText t).id = some id) : id ⊆ t := by
  have hm : id ∈ (split t).2.filterMap Fragment.id? := List.mem_of_getLast? h
  obtain ⟨f, hf, he⟩ := List.mem_filterMap.mp hm
  obtain rfl := Fragment.id?_eq_some_iff.mp he
  exact (split_subset t).2 _ hf

theorem class_ofText_subset {t name : Text} (h : name ∈ (ofText t).classes) : name ⊆ t := by
  change name ∈ (split t).2.filterMap Fragment.className? at h
  rw [Fragment.filterMap_className?] at h
  obtain ⟨f, hf, rfl⟩ := List.mem_map.mp h
  exact (split_subset t).2 f (List.mem_of_mem_filter hf)

end IndentMarkup.Selector
