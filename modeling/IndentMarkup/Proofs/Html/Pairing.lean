import Mathlib.Tactic.SplitIfs
import IndentMarkup.Proofs.Html.Page

/-! Opening tags and their closing tags among the lines of a page. Whatever is written between the
two is whole, so both stand at one level. -/
namespace IndentMarkup.Html

/-- A line with the opening tag of an element that has children. -/
def Opens (l : Line) (t : OpenTag) : Prop :=
  l.level = t.level ∧ ∃ e, l.piece = .element e ∧ e.body = .children ∧ e.tag = t.tag

/-- A line that neither opens nor closes a tag for others. -/
def IsLeaf (l : Line) : Prop :=
  (∃ e, l.piece = .element e ∧ e.body ≠ .children) ∨ ∃ text, l.piece = .verbatim text

/-- The closing tag of an opening tag, given the lines behind it: the first that closes none of the
tags opened in between. The depth counts those. -/
def closingOf? : (depth : Nat) → List Line → Option Line
  | _, [] => none
  | depth, l :: lines =>
    match l.piece, depth with
    | .closing _, 0 => some l
    | .closing _, depth + 1 => closingOf? depth lines
    | .element e, depth => closingOf? (if e.body = .children then depth + 1 else depth) lines
    | .verbatim _, depth => closingOf? depth lines

/-- Lines in which every tag that is opened is closed again, at its level. -/
inductive Whole : List Line → Prop
  | nil : Whole []
  | leaf {l : Line} {rest : List Line} : IsLeaf l → Whole rest → Whole (l :: rest)
  | element {opening : Line} {t : OpenTag} {inside rest : List Line} (unit : Text) :
      Opens opening t → Whole inside → Whole rest →
      Whole (opening :: (inside ++ t.close unit :: rest))

/-- Lines that are whole but for some open tags, of which the innermost comes first. -/
inductive Standing : List OpenTag → List Line → Prop
  | done {lines : List Line} : Whole lines → Standing [] lines
  | inside {t : OpenTag} {tags : List OpenTag} {opening : Line} {lines inner : List Line} :
      Standing tags lines → Opens opening t → Whole inner →
      Standing (t :: tags) (lines ++ opening :: inner)

/-- A line in a page of two parts stands in the first or in the second. -/
theorem split_of_append_eq {front back before after : List Line} {l : Line}
    (h : front ++ back = before ++ l :: after) :
    (∃ inner, front = before ++ l :: inner ∧ after = inner ++ back) ∨
      ∃ outer, before = front ++ outer ∧ back = outer ++ l :: after := by
  rcases List.append_eq_append_iff.mp h with ⟨outer, hb, ho⟩ | ⟨gap, hf, hg⟩
  · exact .inr ⟨outer, hb, ho⟩
  · rcases List.cons_eq_append_iff.mp hg with ⟨rfl, hback⟩ | ⟨inner, rfl, ha⟩
    · exact .inr ⟨[], by simpa using hf.symm, hback⟩
    · exact .inl ⟨inner, hf, ha⟩

section Lines

variable {l opening : Line} {t t' : OpenTag} {lines more : List Line}

theorem Opens.eq (h : Opens l t) (h' : Opens l t') : t = t' := by
  obtain ⟨hl, e, hp, -, ht⟩ := h
  obtain ⟨hl', e', hp', -, ht'⟩ := h'
  have he : e = e' := by simpa [hp] using hp'
  have htag : t.tag = t'.tag := by rw [← ht, ← ht', he]
  have hlevel : t.level = t'.level := by rw [← hl, ← hl']
  cases t
  cases t'
  simp_all

theorem Opens.not_isLeaf (h : Opens l t) : ¬IsLeaf l := by
  obtain ⟨-, e, hp, hb, -⟩ := h
  rintro (⟨e', hp', hb'⟩ | ⟨text, hp'⟩)
  · have he : e = e' := by simpa [hp] using hp'
    exact hb' (he ▸ hb)
  · simp [hp] at hp'

theorem Opens.ne_close (h : Opens l t) (unit : Text) : l ≠ t'.close unit := by
  obtain ⟨-, e, hp, -, -⟩ := h
  rintro rfl
  simp [OpenTag.close] at hp

theorem closingOf?_leaf (h : IsLeaf l) (depth : Nat) (rest : List Line) :
    closingOf? depth (l :: rest) = closingOf? depth rest := by
  rcases h with ⟨e, hp, hb⟩ | ⟨text, hp⟩ <;> simp [closingOf?, *]

theorem closingOf?_opens (h : Opens l t) (depth : Nat) (rest : List Line) :
    closingOf? depth (l :: rest) = closingOf? (depth + 1) rest := by
  obtain ⟨-, e, hp, hb, -⟩ := h
  simp [closingOf?, hp, hb]

@[simp] theorem closingOf?_close_zero (t : OpenTag) (unit : Text) (rest : List Line) :
    closingOf? 0 (t.close unit :: rest) = some (t.close unit) := rfl

@[simp] theorem closingOf?_close_succ (t : OpenTag) (unit : Text) (depth : Nat)
    (rest : List Line) :
    closingOf? (depth + 1) (t.close unit :: rest) = closingOf? depth rest := rfl

theorem mem_of_closingOf? {depth : Nat} (h : closingOf? depth lines = some l) : l ∈ lines := by
  fun_induction closingOf? depth lines with
  | case1 => simp at h
  | case2 => simp_all
  | case3 closing lines tag depth hp ih => exact List.mem_cons_of_mem _ (ih h)
  | case4 depth written lines e hp ih => exact List.mem_cons_of_mem _ (ih h)
  | case5 depth written lines text hp ih => exact List.mem_cons_of_mem _ (ih h)

theorem closingOf?_of_found {depth : Nat} (h : closingOf? depth lines = some l)
    (more : List Line) : closingOf? depth (lines ++ more) = some l := by
  fun_induction closingOf? depth lines with
  | case1 => simp at h
  | case2 closing lines tag hp => simpa [closingOf?, hp] using h
  | case3 closing lines tag depth hp ih => simpa [closingOf?, hp] using ih h
  | case4 depth written lines e hp ih => simpa [closingOf?, hp] using ih h
  | case5 depth written lines text hp ih => simpa [closingOf?, hp] using ih h

/-- Whole lines hide no closing tag. -/
theorem Whole.closingOf?_append (h : Whole lines) (depth : Nat) (more : List Line) :
    closingOf? depth (lines ++ more) = closingOf? depth more := by
  induction h generalizing depth more with
  | nil => rfl
  | leaf hl _ ih => rw [List.cons_append, closingOf?_leaf hl, ih]
  | @element opening t inside rest unit ho _ _ ihi ihr =>
    rw [List.cons_append, closingOf?_opens ho, List.append_assoc, ihi, List.cons_append,
      closingOf?_close_succ, ihr]

theorem Whole.append (h : Whole lines) (h' : Whole more) : Whole (lines ++ more) := by
  induction h with
  | nil => exact h'
  | leaf hl _ ih => exact .leaf hl ih
  | @element opening t inside rest unit ho hi _ _ ihr =>
    have hw := Whole.element unit ho hi ihr
    rwa [List.cons_append, List.append_assoc, List.cons_append]

theorem Standing.append {tags : List OpenTag} (h : Standing tags lines) (hm : Whole more) :
    Standing tags (lines ++ more) := by
  cases h with
  | done hw => exact .done (hw.append hm)
  | @inside t tags opening lines inner hs ho hi =>
    rw [List.append_assoc, List.cons_append]
    exact .inside hs ho (hi.append hm)

/-- A closing tag makes whole what stands behind its opening tag. -/
theorem Standing.close {tags : List OpenTag} (h : Standing (t :: tags) lines) (unit : Text) :
    Standing tags (lines ++ [t.close unit]) := by
  cases h with
  | @inside _ _ opening lines inner hs ho hi =>
    rw [List.append_assoc]
    exact hs.append (.element unit ho hi .nil)

theorem Standing.closeAll {closed tags : List OpenTag} (h : Standing (closed ++ tags) lines)
    (unit : Text) : Standing tags (lines ++ closed.map (·.close unit)) := by
  induction closed generalizing lines with
  | nil => simpa using h
  | cons t closed ih =>
    have hc := ih (h.close unit)
    rwa [List.append_assoc, List.singleton_append] at hc

/-- Every opening tag among whole lines has a closing tag behind it, at its level. -/
theorem Whole.exists_closing (h : Whole lines) {before after : List Line}
    (hl : lines = before ++ opening :: after) (ho : Opens opening t) :
    ∃ unit, closingOf? 0 after = some (t.close unit) := by
  induction h generalizing before after with
  | nil => simp at hl
  | @leaf l rest hleaf _ ih =>
    rcases List.cons_eq_append_iff.mp hl with ⟨rfl, hh⟩ | ⟨before, rfl, hr⟩
    · obtain ⟨rfl, rfl⟩ : opening = l ∧ after = rest := by simpa using hh
      exact absurd hleaf ho.not_isLeaf
    · exact ih hr
  | @element o t' inside rest unit ho' hi _ ihi ihr =>
    rcases List.cons_eq_append_iff.mp hl with ⟨rfl, hh⟩ | ⟨before, rfl, hr⟩
    · obtain ⟨rfl, rfl⟩ : opening = o ∧ after = inside ++ t'.close unit :: rest := by
        simpa using hh
      obtain rfl := ho.eq ho'
      exact ⟨unit, by rw [hi.closingOf?_append, closingOf?_close_zero]⟩
    · -- the opening tag stands inside the element or behind it, for its closing tag opens nothing
      rcases split_of_append_eq hr with ⟨inner, hin, rfl⟩ | ⟨outer, -, hout⟩
      · obtain ⟨unit', hc⟩ := ihi hin
        exact ⟨unit', closingOf?_of_found hc _⟩
      · rcases List.cons_eq_append_iff.mp hout with ⟨rfl, hh⟩ | ⟨gap, rfl, hb⟩
        · have hc : opening = t'.close unit := (List.cons.inj hh).1
          exact absurd hc (ho.ne_close unit)
        · exact ihr hb

end Lines

namespace Page

variable {p : Page}

theorem standing_closeWhile (h : Standing p.openTags p.lines.toList) (unit : Text)
    (due : OpenTag → Bool) :
    Standing (p.closeWhile unit due).openTags (p.closeWhile unit due).lines.toList := by
  rw [← List.takeWhile_append_dropWhile (p := due) (l := p.openTags)] at h
  rw [lines_closeWhile, openTags_closeWhile]
  exact h.closeAll unit

theorem standing_writeElement (h : Standing p.openTags p.lines.toList) (unit : Text)
    (level : Nat) (e : Element) :
    Standing (p.writeElement unit level e).openTags
      (p.writeElement unit level e).lines.toList := by
  rw [lines_writeElement, openTags_writeElement, tagsOf]
  split_ifs with hb
  · have ho : Opens ⟨unit, level, .element e⟩ ⟨level, e.tag⟩ := ⟨rfl, e, rfl, hb, rfl⟩
    exact .inside h ho .nil
  · have hl : IsLeaf ⟨unit, level, .element e⟩ := .inl ⟨e, rfl, hb⟩
    exact h.append (.leaf hl .nil)

theorem standing_writeNested (h : Standing p.openTags p.lines.toList) (unit : Text)
    (level : Nat) (elements : List Element) :
    Standing (p.writeNested unit level elements).openTags
      (p.writeNested unit level elements).lines.toList := by
  induction elements generalizing level p with
  | nil => exact h
  | cons e elements ih => exact ih (standing_writeElement h unit level e) (level + 1)

theorem standing_write (h : Standing p.openTags p.lines.toList) (unit : Text) (level : Nat)
    (a : Addition) :
    Standing (a.write unit level p).openTags (a.write unit level p).lines.toList := by
  cases a with
  | verbatim text =>
    have hl : IsLeaf ⟨unit, level, .verbatim text⟩ := .inr ⟨text, rfl⟩
    have hw := h.append (.leaf hl .nil)
    rwa [Addition.write, lines_writeVerbatim, openTags_writeVerbatim]
  | nested elements => exact standing_writeNested h unit level elements

end Page
end IndentMarkup.Html
