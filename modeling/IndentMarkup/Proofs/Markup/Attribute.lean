import Mathlib.Tactic.SplitIfs
import IndentMarkup.Markup.Attribute
import IndentMarkup.Proofs.Text.Cut
import IndentMarkup.Proofs.Text.Trim

/-! Attributes written out and read back. Where a plain value ends depends on what follows it, so
each statement is about a text that goes on behind the attribute. -/
namespace IndentMarkup.Attribute
open Text

/-- An attribute as it is written on a line. -/
def print (a : Attribute) : Text :=
  a.name ++ '=' :: a.value

/-- A value that is taken as it stands. -/
structure IsPlain (value : Text) : Prop where
  trimmed : value.trim = value
  no_equals : '=' ∉ value
  no_bracket : '<' ∉ value
  no_braces : ¬Placeholder.braces.opener <+: value

/-- A single placeholder: its first closer stands at its end. -/
def IsTemplate (value : Text) : Prop :=
  ∃ (p : Placeholder) (body : Text), value = p.opener ++ body ++ p.closer ∧
    ¬p.closer <:+: (body ++ p.closer).dropLast

/-- A name that is one word and shows its own end. -/
def IsName (name : Text) : Prop :=
  ∀ c ∈ name, isBlank c = false ∧ c ≠ '=' ∧ c ≠ '<'

instance (name : Text) : Decidable (IsName name) :=
  List.decidableBAll _ name

/-- An attribute that can be read back. -/
structure Printable (a : Attribute) : Prop where
  name : IsName a.name
  value : IsPlain a.value ∨ IsTemplate a.value

/-- Where a plain value may end: before a word with an equals sign, or before inline content. -/
def Boundary (t : Text) : Prop :=
  if '=' ∈ t then ∀ c ∈ t.takeWhile (· != '='), isInlineBlank c = false else t.head? = some '<'

/-- A text behind a value that does not become part of it. -/
def Follows (value rest : Text) : Prop :=
  IsTemplate value ∨ rest = [] ∨
    ∃ w t, rest = w ++ t ∧ w ≠ [] ∧ (∀ c ∈ w, isInlineBlank c = true) ∧ Boundary t

theorem takeWhile_ne {c : Char} {before : Text} (h : c ∉ before) (after : Text) :
    (before ++ c :: after).takeWhile (· != c) = before := by
  refine takeWhile_append_of_stop (fun d hd => ?_) (by simp)
  have : d ≠ c := fun he => h (he ▸ hd)
  simpa using this

theorem splitAfterLastBlank?_word {word : Text} (h : ∀ c ∈ word, isInlineBlank c = false) :
    splitAfterLastBlank? word = none := by
  induction word with
  | nil => rfl
  | cons c word ih =>
    have hw := ih fun d hd => h d (by simp [hd])
    simp [splitAfterLastBlank?, hw, h c (by simp)]

theorem splitAfterLastBlank?_append {c : Char} {word : Text} (hc : isInlineBlank c = true)
    (h : ∀ d ∈ word, isInlineBlank d = false) (front : Text) :
    splitAfterLastBlank? (front ++ c :: word) = some (front ++ [c], word) := by
  induction front with
  | nil => simp [splitAfterLastBlank?, splitAfterLastBlank?_word h, hc]
  | cons d front ih => simp [splitAfterLastBlank?, ih]

theorem start?_opener (p : Placeholder) (inner : Text) :
    Placeholder.start? (p.opener ++ inner) = some (p, inner) := by
  cases p <;> rfl

theorem start?_plain {v rest : Text} (hv : IsPlain v)
    (hr : ∀ c ∈ rest.head?, isInlineBlank c = true) : Placeholder.start? (v ++ rest) = none := by
  have hb := hv.no_bracket
  have ho := hv.no_braces
  unfold Placeholder.start?
  split
  · next inner he =>
    -- a brace could only come from the blank behind the value
    match v with
    | [] => exact absurd (hr '\x7b' (by simp_all)) (by decide)
    | [c] => exact absurd (hr '\x7b' (by simp_all)) (by decide)
    | c :: d :: v => simp_all [Placeholder.opener]
  · next inner he =>
    match v with
    | [] => exact absurd (hr '<' (by simp_all)) (by decide)
    | c :: v => simp_all
  · rfl

theorem scanValue_template {v : Text} (hv : IsTemplate v) (rest : Text) :
    scanValue (v ++ rest) = .value v rest := by
  obtain ⟨p, body, rfl, hb⟩ := hv
  have hp : p.closer ≠ [] := by cases p <;> simp [Placeholder.closer]
  have hc := cut?_append hp hb rest
  simp only [List.append_assoc] at hc ⊢
  rw [scanValue, start?_opener]
  simp [hc]

theorem trimEnd_template {v : Text} (hv : IsTemplate v) : trimEnd v = v := by
  obtain ⟨p, body, rfl, -⟩ := hv
  apply trimEnd_eq_self
  cases p <;> simp [Placeholder.closer] <;> decide

/-- At the end of a text, a plain value takes the blanks behind it along. -/
theorem scanValue_plain {v w : Text} (hv : IsPlain v) (hw : ∀ c ∈ w, isInlineBlank c = true) :
    scanValue (v ++ w) = .value (v ++ w) [] := by
  have hwe : '=' ∉ w := fun h => absurd (hw _ h) (by decide)
  have hwl : '<' ∉ w := fun h => absurd (hw _ h) (by decide)
  have hs : Placeholder.start? (v ++ w) = none :=
    start?_plain hv fun c hc => hw c (List.mem_of_head? hc)
  have hn : '=' ∉ v ++ w := by simp [hv.no_equals, hwe]
  have hl : ∀ c ∈ v ++ w, (c != '<') = true := by
    intro c hc
    have : c ≠ '<' := by
      rintro rfl
      simp [hv.no_bracket, hwl] at hc
    simpa using this
  rw [scanValue, hs, cut?_singleton_eq_none_iff.mpr hn]
  simp only [List.takeWhile_eq_self_iff.mpr hl, List.dropWhile_eq_nil_iff.mpr hl]

/-- A plain value takes the blanks behind it along, and nothing else. -/
theorem scanValue_plain_append {v w t : Text} (hv : IsPlain v) (hne : w ≠ [])
    (hw : ∀ c ∈ w, isInlineBlank c = true) (ht : Boundary t) :
    scanValue (v ++ (w ++ t)) = .value (v ++ w) t := by
  have hwe : '=' ∉ w := fun h => absurd (hw _ h) (by decide)
  have hwl : '<' ∉ w := fun h => absurd (hw _ h) (by decide)
  have hs : Placeholder.start? (v ++ (w ++ t)) = none := by
    refine start?_plain hv fun c hc => hw c ?_
    rw [List.head?_append_of_ne_nil _ hne] at hc
    exact List.mem_of_head? hc
  rw [scanValue, hs]
  unfold Boundary at ht
  split_ifs at ht with he
  · obtain ⟨word, after, rfl, hn⟩ := List.eq_append_cons_of_mem he
    rw [takeWhile_ne hn] at ht
    obtain ⟨front, c, rfl⟩ : ∃ front c, w = front ++ [c] :=
      ⟨w.dropLast, w.getLast hne, (List.dropLast_append_getLast hne).symm⟩
    have hb : '=' ∉ v ++ (front ++ [c]) ++ word := by
      simp only [List.mem_append, not_or]
      exact ⟨⟨hv.no_equals, by simpa using hwe⟩, hn⟩
    have hc := cut?_singleton hb after
    have hl := splitAfterLastBlank?_append (hw c (by simp)) ht (v ++ front)
    simp only [List.append_assoc, List.cons_append, List.nil_append] at hc hl ⊢
    simp only [hc, hl]
  · have hn : '=' ∉ v ++ (w ++ t) := by simp [hv.no_equals, hwe, he]
    have hl : ∀ c ∈ v ++ w, (c != '<') = true := by
      intro c hc
      have : c ≠ '<' := by
        rintro rfl
        simp [hv.no_bracket, hwl] at hc
      simpa using this
    have hh : ∀ c ∈ t.head?, (c != '<') = false := by simp [ht]
    simp only [cut?_singleton_eq_none_iff.mpr hn]
    rw [← List.append_assoc, takeWhile_append_of_stop hl hh, dropWhile_append_of_stop hl hh]

theorem scan_eq (t : Text) :
    scan t =
      match cut? ['='] t with
      | none => .ok ([], t)
      | some (name, after) =>
        if name.contains '<' then .ok ([], t)
        else match scanValue after with
          | .ambiguous => .ok ([], t)
          | .unclosed p => .error p
          | .value value rest =>
            (scan rest).map fun (as, rest) => (⟨name.trim, value.trimEnd⟩ :: as, rest) := by
  rw [scan]
  split
  · next hc => simp [hc]
  · next name after hc =>
    simp only [hc]
    split_ifs
    · rfl
    · split
      · next hv => simp [hv]
      · next hv => simp [hv]
      · next value rest hv =>
        simp only [hv]
        cases scan rest <;> rfl

/-- Blanks in front of the attributes make no difference. -/
theorem parse_blank_append {w : Text} (hw : ∀ c ∈ w, isInlineBlank c = true) (line : Nat)
    (t : Text) : parse line (w ++ t) = parse line t := by
  have hwe : '=' ∉ w := fun h => absurd (hw _ h) (by decide)
  have hwl : '<' ∉ w := fun h => absurd (hw _ h) (by decide)
  have htrim : ∀ u : Text, (w ++ u).trim = u.trim :=
    trim_blank_append fun c hc => isBlank_of_isInlineBlank (hw c hc)
  unfold parse
  rw [scan_eq (w ++ t), scan_eq t]
  by_cases he : '=' ∈ t
  · obtain ⟨name, after, rfl, hn⟩ := List.eq_append_cons_of_mem he
    have hb : '=' ∉ w ++ name := by simp [hwe, hn]
    have hc := cut?_singleton hb after
    rw [List.append_assoc] at hc
    rw [hc, cut?_singleton hn]
    have hl : (w ++ name).contains '<' = name.contains '<' := by simp [hwl]
    simp only [hl, htrim]
    split_ifs
    · simp [htrim]
    · cases scanValue after <;> simp [htrim]
  · have hn : '=' ∉ w ++ t := by simp [hwe, he]
    rw [cut?_singleton_eq_none_iff.mpr hn, cut?_singleton_eq_none_iff.mpr he]
    simp [htrim]

/-- What cannot start an attribute is left over. -/
theorem parse_rest {t : Text} (h : '=' ∈ t → '<' ∈ t.takeWhile (· != '=')) (line : Nat) :
    parse line t = .ok ([], t.trim) := by
  unfold parse
  rw [scan_eq]
  by_cases he : '=' ∈ t
  · have hl := h he
    obtain ⟨name, after, rfl, hn⟩ := List.eq_append_cons_of_mem he
    rw [takeWhile_ne hn] at hl
    rw [cut?_singleton hn]
    simp [hl]
  · rw [cut?_singleton_eq_none_iff.mpr he]

/-- An attribute is read back if its value is, up to blanks behind it. -/
theorem parse_print_of_scanValue {a : Attribute} {w t value : Text} (hn : IsName a.name)
    (hw : ∀ c ∈ w, isInlineBlank c = true)
    (hv : scanValue (a.value ++ (w ++ t)) = .value value t) (he : value.trimEnd = a.value)
    (line : Nat) :
    parse line (a.print ++ (w ++ t)) =
      (parse line (w ++ t)).map fun (as, rest) => (a :: as, rest) := by
  have heq : '=' ∉ a.name := fun h => (hn _ h).2.1 rfl
  have hl : a.name.contains '<' = false := by
    simpa using fun h => (hn '<' h).2.2 rfl
  have hname : a.name.trim = a.name :=
    trim_eq_self (fun c hc => (hn c (List.mem_of_head? hc)).1)
      (fun c hc => (hn c (List.mem_of_getLast? hc)).1)
  rw [parse_blank_append hw]
  unfold parse print
  rw [scan_eq, List.append_assoc, List.cons_append, cut?_singleton heq]
  simp only [hl, hv, hname, he, Bool.false_eq_true, if_false]
  cases scan t <;> rfl

/-- Blanks that a plain value takes along are lost again when it is trimmed. -/
theorem IsPlain.trimEnd_append {v w : Text} (hv : IsPlain v)
    (hw : ∀ c ∈ w, isInlineBlank c = true) : trimEnd (v ++ w) = v :=
  trimEnd_append_of_trim_eq_self hv.trimmed fun c hc => isBlank_of_isInlineBlank (hw c hc)

/-- An attribute that was written out is read back, and reading goes on behind it. -/
theorem parse_print_append {a : Attribute} {rest : Text} (ha : a.Printable)
    (hr : Follows a.value rest) (line : Nat) :
    parse line (a.print ++ rest) = (parse line rest).map fun (as, rest) => (a :: as, rest) := by
  have hnone : ∀ c ∈ ([] : Text), isInlineBlank c = true := by simp
  have htemplate : IsTemplate a.value → parse line (a.print ++ rest) =
      (parse line rest).map fun (as, rest) => (a :: as, rest) := fun ht =>
    parse_print_of_scanValue (w := []) ha.name hnone (scanValue_template ht rest)
      (trimEnd_template ht) line
  rcases ha.value with hp | ht
  · rcases hr with ht | rfl | ⟨w, t, rfl, hne, hw, hb⟩
    · exact htemplate ht
    · have hv : scanValue (a.value ++ ([] ++ [])) = .value (a.value ++ []) [] :=
        scanValue_plain hp hnone
      exact parse_print_of_scanValue ha.name hnone hv (hp.trimEnd_append hnone) line
    · exact parse_print_of_scanValue ha.name hw (scanValue_plain_append hp hne hw hb)
        (hp.trimEnd_append hw) line
  · exact htemplate ht

/-- Attributes as they follow a selector, each behind a space. -/
def printAll (attributes : List Attribute) : Text :=
  attributes.flatMap fun a => ' ' :: a.print

theorem printAll_cons (a : Attribute) (attributes : List Attribute) :
    printAll (a :: attributes) = ' ' :: a.print ++ printAll attributes := by
  simp [printAll]

/-- A plain value ends in front of the next attribute. -/
theorem boundary_print {a : Attribute} (ha : a.Printable) (rest : Text) :
    Boundary (a.print ++ rest) := by
  have hn : '=' ∉ a.name := fun h => (ha.name _ h).2.1 rfl
  have hp : a.print ++ rest = a.name ++ '=' :: (a.value ++ rest) := by simp [print]
  unfold Boundary
  rw [hp, if_pos (by simp), takeWhile_ne hn]
  exact fun c hc => isInlineBlank_of_not_isBlank (ha.name c hc).1

theorem follows_printAll {a b : Attribute} (hb : b.Printable) (attributes : List Attribute)
    (ending : Text) : Follows a.value (printAll (b :: attributes) ++ ending) := by
  refine .inr (.inr ⟨[' '], b.print ++ (printAll attributes ++ ending), ?_, by simp,
    isInlineBlank_space, boundary_print hb _⟩)
  simp [printAll_cons]

/-- Attributes that were written out are read back, up to the text behind the last. -/
theorem parse_printAll_append {attributes : List Attribute} {ending : Text}
    (ha : ∀ a ∈ attributes, a.Printable)
    (he : ∀ a ∈ attributes.getLast?, Follows a.value ending) (line : Nat) :
    parse line (printAll attributes ++ ending) =
      (parse line ending).map fun (as, rest) => (attributes ++ as, rest) := by
  induction attributes with
  | nil =>
    rw [show printAll [] ++ ending = ending from rfl]
    cases parse line ending <;> rfl
  | cons a attributes ih =>
    have hf : Follows a.value (printAll attributes ++ ending) := by
      cases attributes with
      | nil => exact he a rfl
      | cons b attributes => exact follows_printAll (ha b (by simp)) attributes ending
    have hl : ∀ b ∈ attributes.getLast?, Follows b.value ending := by
      intro b hb
      apply he
      rw [List.getLast?_cons, hb]
      rfl
    have hs := parse_blank_append isInlineBlank_space line
      (a.print ++ (printAll attributes ++ ending))
    rw [printAll_cons, List.cons_append, List.cons_append, List.append_assoc]
    rw [List.singleton_append] at hs
    rw [hs, parse_print_append (ha a (by simp)) hf, ih (fun b hb => ha b (by simp [hb])) hl]
    cases parse line ending <;> rfl

theorem getLast_print {a : Attribute} (ha : a.Printable) :
    ∀ c ∈ a.print.getLast?, isBlank c = false := by
  have hv : trimEnd a.value = a.value := by
    rcases ha.value with hp | ht
    · exact trimEnd_of_trim_eq_self hp.trimmed
    · exact trimEnd_template ht
  have hp : a.print = (a.name ++ ['=']) ++ a.value := by simp [print]
  rw [hp]
  refine getLast_append ?_ (getLast_of_trimEnd_eq_self hv)
  have he : isBlank '=' = false := by decide
  simpa using he

theorem getLast_printAll {attributes : List Attribute} (ha : ∀ a ∈ attributes, a.Printable) :
    ∀ c ∈ (printAll attributes).getLast?, isBlank c = false := by
  induction attributes with
  | nil => simp [printAll]
  | cons a attributes ih =>
    have hp : ∀ c ∈ (' ' :: a.print).getLast?, isBlank c = false := by
      have hne : a.print ≠ [] := by simp [print]
      rw [← List.singleton_append, List.getLast?_append_of_ne_nil _ hne]
      exact getLast_print (ha a (by simp))
    rw [printAll_cons]
    exact getLast_append hp (ih fun b hb => ha b (by simp [hb]))

theorem scan_subset {t rest : Text} {as : List Attribute} (h : scan t = .ok (as, rest)) :
    (∀ a ∈ as, a.name ⊆ t ∧ a.value ⊆ t) ∧ rest ⊆ t := by
  fun_induction scan t generalizing as rest with
  | case1 t hc => simp_all
  | case2 t name after hc hl => simp_all
  | case3 t name after hc hl hv => simp_all
  | case4 t name after hc hl p hv => simp at h
  | case5 t name after hc hl value tail hv ih =>
    obtain ⟨⟨more, rest'⟩, hs, he⟩ : ∃ r, scan tail = .ok r ∧
        (⟨name.trim, value.trimEnd⟩ :: r.1, r.2) = (as, rest) := by
      cases hs : scan tail with
      | error p => simp [hs, bind, Except.bind] at h
      | ok r => exact ⟨r, rfl, by simpa [hs, bind, Except.bind, pure, Except.pure] using h⟩
    obtain ⟨rfl, rfl⟩ := Prod.mk.inj he
    obtain ⟨hm, hr⟩ := ih hs
    have ht : t = name ++ ['='] ++ (value ++ tail) := by
      rw [(eq_of_cut? hc).2, eq_of_scanValue hv]
    have hname : name ⊆ t := fun c hc => by simp [ht, hc]
    have hvalue : value ⊆ t := fun c hc => by simp [ht, hc]
    have htail : tail ⊆ t := fun c hc => by simp [ht, hc]
    refine ⟨fun a ha => ?_, List.Subset.trans hr htail⟩
    rcases List.mem_cons.mp ha with rfl | ha
    · exact ⟨List.Subset.trans (trim_subset name) hname,
        List.Subset.trans (trimEnd_subset value) hvalue⟩
    · exact ⟨List.Subset.trans (hm a ha).1 htail, List.Subset.trans (hm a ha).2 htail⟩

/-- Attributes and the text left over are made of the characters that were read. -/
theorem parse_subset {line : Nat} {t rest : Text} {as : List Attribute}
    (h : parse line t = .ok (as, rest)) :
    (∀ a ∈ as, a.name ⊆ t ∧ a.value ⊆ t) ∧ rest ⊆ t := by
  unfold parse at h
  split at h
  · simp at h
  · next as' rest' hs =>
    obtain ⟨rfl, rfl⟩ := by simpa using h
    obtain ⟨hm, hr⟩ := scan_subset hs
    exact ⟨hm, List.Subset.trans (trim_subset rest') hr⟩

theorem opener_of_scanValue {t : Text} {p : Placeholder} (h : scanValue t = .unclosed p) :
    p.opener <+: t := by
  unfold scanValue at h
  split at h
  · next q inner hq =>
    split at h
    · obtain rfl : q = p := by simpa using h
      exact ⟨inner, (Placeholder.eq_of_start? hq).symm⟩
    · simp at h
  · split at h
    · simp at h
    · split at h <;> simp at h

/-- A placeholder that is not closed stands right behind an equals sign. -/
theorem scan_error {t : Text} {p : Placeholder} (h : scan t = .error p) :
    '=' :: p.opener <:+: t := by
  fun_induction scan t with
  | case1 => simp at h
  | case2 => simp at h
  | case3 => simp at h
  | case4 t name after hc hl q hv =>
    obtain rfl : q = p := by simpa using h
    obtain ⟨inner, rfl⟩ := opener_of_scanValue hv
    exact ⟨name, inner, by simp [(eq_of_cut? hc).2]⟩
  | case5 t name after hc hl value tail hv ih =>
    have hs : scan tail = .error p := by
      cases hs : scan tail with
      | error q => simpa [hs, bind, Except.bind] using h
      | ok r => simp [hs, bind, Except.bind, pure, Except.pure] at h
    have ht : t = name ++ ['='] ++ value ++ tail := by
      rw [(eq_of_cut? hc).2, eq_of_scanValue hv, List.append_assoc _ value]
    exact (ih hs).trans (ht ▸ (List.suffix_append _ tail).isInfix)

theorem parse_error {line : Nat} {t : Text} {e : CompileError} (h : parse line t = .error e) :
    ∃ p, e = .unclosedPlaceholder p line ∧ '=' :: p.opener <:+: t := by
  unfold parse at h
  split at h
  · next p hs => exact ⟨p, (Except.error.inj h).symm, scan_error hs⟩
  · simp at h

end IndentMarkup.Attribute
