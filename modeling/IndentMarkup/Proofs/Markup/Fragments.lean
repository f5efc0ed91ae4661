import Mathlib.Data.List.Basic
import Mathlib.Tactic.SplitIfs
import IndentMarkup.Markup.Selector

/-! The text of a selector is cut at its markers. It can be cut in one way only, and reading the
selector keeps the parts of this cut. -/
namespace IndentMarkup.Selector

/-- A text in which no fragment starts. -/
def Unmarked (t : Text) : Prop :=
  ∀ c ∈ t, c ≠ '#' ∧ c ≠ '.'

namespace Fragment

def marker : Fragment → Char
  | .id _ => '#'
  | .className _ => '.'

def name : Fragment → Text
  | .id name => name
  | .className name => name

/-- A fragment as it is written. -/
def print (f : Fragment) : Text :=
  f.marker :: f.name

theorem id?_eq_none_iff {f : Fragment} : f.id? = none ↔ f.marker ≠ '#' := by
  cases f <;> simp [id?, marker]

theorem id?_eq_some_iff {f : Fragment} {name : Text} : f.id? = some name ↔ f = .id name := by
  cases f <;> simp [id?]

/-- The names behind dots are the class names. -/
theorem filterMap_className? (fragments : List Fragment) :
    fragments.filterMap className? = (fragments.filter (·.marker = '.')).map name := by
  induction fragments with
  | nil => rfl
  | cons f fragments ih =>
    cases f with
    | id n =>
      have hn : className? (.id n) = none := rfl
      have hm : marker (.id n) ≠ '.' := by simp [marker]
      simp [List.filterMap_cons_none hn, hm, ih]
    | className n =>
      have hn : className? (.className n) = some n := rfl
      have hm : marker (.className n) = '.' := rfl
      simp [List.filterMap_cons_some hn, hm, ih, name]

/-- The last identifier is the one that no other follows. -/
theorem getLast?_filterMap_id?_eq_some_iff {fragments : List Fragment} {id : Text} :
    (fragments.filterMap id?).getLast? = some id ↔
      ∃ before after, fragments = before ++ .id id :: after ∧ ∀ f ∈ after, f.marker ≠ '#' := by
  constructor
  · intro h
    obtain ⟨ids, hids⟩ := List.getLast?_eq_some_iff.mp h
    obtain ⟨front, back, rfl, -, hback⟩ := List.filterMap_eq_append_iff.mp hids
    obtain ⟨others, f, after, rfl, -, hf, hafter⟩ := List.filterMap_eq_cons_iff.mp hback
    obtain rfl := id?_eq_some_iff.mp hf
    have hlast := List.filterMap_eq_nil_iff.mp hafter
    exact ⟨front ++ others, after, by simp, fun f hm => id?_eq_none_iff.mp (hlast f hm)⟩
  · rintro ⟨before, after, rfl, hafter⟩
    have hnone : after.filterMap id? = [] :=
      List.filterMap_eq_nil_iff.mpr fun f hm => id?_eq_none_iff.mpr (hafter f hm)
    have hid : id? (.id id) = some id := rfl
    rw [List.filterMap_append, List.filterMap_cons_some hid, hnone, List.getLast?_concat]

theorem getLast?_filterMap_id?_eq_none_iff {fragments : List Fragment} :
    (fragments.filterMap id?).getLast? = none ↔ ∀ f ∈ fragments, f.marker ≠ '#' := by
  rw [List.getLast?_eq_none_iff, List.filterMap_eq_nil_iff]
  exact forall₂_congr fun f _ => id?_eq_none_iff

end Fragment

theorem split_unmarked_append {name : Text} (h : Unmarked name) (t : Text) :
    split (name ++ t) = (name ++ (split t).1, (split t).2) := by
  induction name with
  | nil => rfl
  | cons c name ih =>
    obtain ⟨h1, h2⟩ := h c List.mem_cons_self
    have hn : Unmarked name := fun d hd => h d (List.mem_cons_of_mem c hd)
    simp [split, ih hn, h1, h2]

/-- A fragment takes in all that stands before the next marker. -/
theorem split_print_append {f : Fragment} (h : Unmarked f.name) {t : Text} {more : List Fragment}
    (ht : split t = ([], more)) : split (f.print ++ t) = ([], f :: more) := by
  have hn := split_unmarked_append h t
  rw [ht, List.append_nil] at hn
  cases f with
  | id name =>
    change split ('#' :: (name ++ t)) = _
    rw [split, show split (name ++ t) = (name, more) from hn]
    rfl
  | className name =>
    change split ('.' :: (name ++ t)) = _
    rw [split, show split (name ++ t) = (name, more) from hn]
    rfl

theorem split_fragments {fragments : List Fragment} (h : ∀ f ∈ fragments, Unmarked f.name) :
    split (fragments.flatMap Fragment.print) = ([], fragments) := by
  induction fragments with
  | nil => rfl
  | cons f fragments ih =>
    have hf : Unmarked f.name := h f List.mem_cons_self
    have hmore := ih fun g hg => h g (List.mem_cons_of_mem f hg)
    rw [List.flatMap_cons]
    exact split_print_append hf hmore

/-- A way to cut a text at markers: what stands before the first one, then each marker together with
what stands before the next. -/
@[ext] structure Cut where
  head : Text
  fragments : List Fragment
  unmarked_head : Unmarked head
  unmarked_fragments : ∀ f ∈ fragments, Unmarked f.name

namespace Cut

/-- The text that is cut. -/
def text (c : Cut) : Text :=
  c.head ++ c.fragments.flatMap Fragment.print

theorem split_text (c : Cut) : split c.text = (c.head, c.fragments) := by
  rw [text, split_unmarked_append c.unmarked_head, split_fragments c.unmarked_fragments,
    List.append_nil]

theorem text_injective {c d : Cut} (h : c.text = d.text) : c = d := by
  have hs : (c.head, c.fragments) = (d.head, d.fragments) := by
    rw [← split_text, ← split_text, h]
  obtain ⟨hhead, hfragments⟩ := Prod.mk.inj hs
  exact Cut.ext hhead hfragments

/-- What a selector keeps of a cut: the head as its tag unless it is empty, the name behind the last
`#`, and the names behind all dots in their order. -/
structure Gives (c : Cut) (s : Selector) : Prop where
  tag : s.tag = if c.head = [] then "div".toList else c.head
  tag_ne : s.tag ≠ []
  id : ∀ id, s.id = some id ↔
    ∃ before after, c.fragments = before ++ .id id :: after ∧ ∀ f ∈ after, f.marker ≠ '#'
  no_id : s.id = none ↔ ∀ f ∈ c.fragments, f.marker ≠ '#'
  classes : s.classes = (c.fragments.filter (·.marker = '.')).map Fragment.name

end Cut

/-- Splitting loses nothing. -/
theorem text_split (t : Text) : (split t).1 ++ (split t).2.flatMap Fragment.print = t := by
  induction t with
  | nil => rfl
  | cons c t ih =>
    simp only [split]
    split_ifs with h1 h2
    · simp [Fragment.print, Fragment.marker, Fragment.name, h1, ih]
    · simp [Fragment.print, Fragment.marker, Fragment.name, h2, ih]
    · simp [ih]

theorem unmarked_split (t : Text) :
    Unmarked (split t).1 ∧ ∀ f ∈ (split t).2, Unmarked f.name := by
  induction t with
  | nil => simp [split, Unmarked]
  | cons c t ih =>
    obtain ⟨hhead, hmore⟩ := ih
    simp only [split]
    split_ifs with h1 h2
    · exact ⟨List.forall_mem_nil _, List.forall_mem_cons.mpr ⟨hhead, hmore⟩⟩
    · exact ⟨List.forall_mem_nil _, List.forall_mem_cons.mpr ⟨hhead, hmore⟩⟩
    · exact ⟨List.forall_mem_cons.mpr ⟨⟨h1, h2⟩, hhead⟩, hmore⟩

theorem tag_ofText_ne (t : Text) : (ofText t).tag ≠ [] := by
  simp only [ofText]
  split_ifs with h
  · decide
  · simpa using h

/-- Every text is cut at markers in exactly one way, and reading a text as a selector keeps what its
cut says. -/
theorem ofText_follows_cut :
    (∀ t : Text, ∃! c : Cut, c.text = t) ∧ ∀ c : Cut, c.Gives (ofText c.text) := by
  constructor
  · intro t
    obtain ⟨hhead, hmore⟩ := unmarked_split t
    exact ⟨⟨_, _, hhead, hmore⟩, text_split t, fun d hd =>
      Cut.text_injective (hd.trans (text_split t).symm)⟩
  · intro c
    have hs := c.split_text
    refine ⟨?_, tag_ofText_ne _, fun id => ?_, ?_, ?_⟩
    · simp only [ofText, hs, List.isEmpty_iff]
      rfl
    · simp only [ofText, hs]
      exact Fragment.getLast?_filterMap_id?_eq_some_iff
    · simp only [ofText, hs]
      exact Fragment.getLast?_filterMap_id?_eq_none_iff
    · simp only [ofText, hs]
      exact Fragment.filterMap_className? _

end IndentMarkup.Selector
