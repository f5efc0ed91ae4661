import IndentMarkup.Markup.Element
import IndentMarkup.Proofs.Markup.Attribute
import IndentMarkup.Proofs.Markup.Selector

/-! Elements written out on one line, and read back from it. -/
namespace IndentMarkup
open Text

namespace Body

/-- What ends the line of an element. -/
def print : Body → Text
  | children => []
  | selfClosing => " /".toList
  | inline text => " <".toList ++ text ++ ">".toList

/-- A body that can be told from an attribute in front of it. A plain value would take a slash
along, and the words of a text up to its first equals sign. -/
def Printable (last : Option Attribute) : Body → Prop
  | children => True
  | selfClosing => ∀ a ∈ last, Attribute.IsTemplate a.value
  | inline text => trim text = text ∧ '\n' ∉ text ∧ text.count '<' = text.count '>' ∧
      ∀ a ∈ last, Attribute.IsTemplate a.value ∨
        ('=' ∈ text → ∀ c ∈ text.takeWhile (· != '='), isInlineBlank c = false)

variable {last : Option Attribute} {body : Body}

theorem follows_print (h : body.Printable last) :
    ∀ a ∈ last, Attribute.Follows a.value body.print := by
  intro a ha
  cases body with
  | children => exact .inr (.inl rfl)
  | selfClosing => exact .inl (h a ha)
  | inline text =>
    obtain ⟨-, -, -, hl⟩ := h
    rcases hl a ha with ht | hw
    · exact .inl ht
    · refine .inr (.inr ⟨[' '], '<' :: text ++ ['>'], rfl, by simp, isInlineBlank_space, ?_⟩)
      unfold Attribute.Boundary
      split_ifs with he
      · have he' : '=' ∈ text := by simpa using he
        obtain ⟨front, back, rfl, hn⟩ := List.eq_append_cons_of_mem he'
        have hf : '=' ∉ '<' :: front := by simp [hn]
        have ht := Attribute.takeWhile_ne hf (back ++ ['>'])
        have hw' := hw he'
        rw [Attribute.takeWhile_ne hn] at hw'
        simp only [List.cons_append, List.append_assoc] at ht ⊢
        rw [ht]
        intro c hc
        rcases List.mem_cons.mp hc with rfl | hc
        · decide
        · exact hw' c hc
      · rfl

theorem parse_print (body : Body) (line : Nat) :
    Attribute.parse line body.print = .ok ([], body.print.trim) := by
  apply Attribute.parse_rest
  cases body with
  | children => simp [print]
  | selfClosing => simp [print]
  | inline text => simp [print]

theorem trim_brackets (text : Text) : trim ('<' :: (text ++ ['>'])) = '<' :: (text ++ ['>']) := by
  have hs : isBlank '<' = false := by decide
  have he : isBlank '>' = false := by decide
  apply trim_eq_self
  · simpa using hs
  · rw [← List.cons_append, List.getLast?_concat]
    simpa using he

theorem trim_print (body : Body) : body.print.trim = body.print.drop 1 := by
  cases body with
  | children => rfl
  | selfClosing => decide
  | inline text =>
    have hs := trim_blank_append isBlank_space ('<' :: (text ++ ['>']))
    exact hs.trans (trim_brackets text)

theorem getLast_print (body : Body) : ∀ c ∈ body.print.getLast?, isBlank c = false := by
  cases body with
  | children => simp [print]
  | selfClosing =>
    have h : isBlank '/' = false := by decide
    simpa [print] using h
  | inline text =>
    have h : isBlank '>' = false := by decide
    rw [print, show ">".toList = ['>'] from rfl, List.getLast?_concat]
    simpa using h

theorem no_newline_print (h : body.Printable last) : '\n' ∉ body.print := by
  cases body with
  | children => simp [print]
  | selfClosing => decide
  | inline text => simp [print, h.2.1]

end Body

namespace Element

/-- What stands behind the selector. -/
def tail (e : Element) : Text :=
  Attribute.printAll e.attributes ++ e.body.print

/-- An element as it is written on a line. -/
def print (e : Element) : Text :=
  e.selector.print ++ e.tail

/-- An element that can be read back. -/
structure Printable (e : Element) : Prop where
  selector : e.selector.Printable
  attributes : ∀ a ∈ e.attributes, a.Printable ∧ '\n' ∉ a.value
  body : e.body.Printable e.attributes.getLast?

variable {e : Element}

theorem tail_eq (h : e.Printable) :
    e.tail = [] ∨ ∃ c t, e.tail = ' ' :: c :: t ∧ isBlank c = false := by
  unfold tail
  cases ha : e.attributes with
  | nil =>
    cases e.body with
    | children => exact .inl rfl
    | selfClosing => exact .inr ⟨'/', [], rfl, by decide⟩
    | inline text => exact .inr ⟨'<', text ++ ">".toList, rfl, by decide⟩
  | cons a attributes =>
    have hp := (h.attributes a (by simp [ha])).1
    right
    cases hn : a.name with
    | nil =>
      exact ⟨'=', a.value ++ Attribute.printAll attributes ++ e.body.print,
        by simp [Attribute.printAll_cons, Attribute.print, hn], by decide⟩
    | cons c name =>
      exact ⟨c, name ++ '=' :: a.value ++ Attribute.printAll attributes ++ e.body.print,
        by simp [Attribute.printAll_cons, Attribute.print, hn], (hp.name c (by simp [hn])).1⟩

theorem getLast_tail (h : e.Printable) : ∀ c ∈ e.tail.getLast?, isBlank c = false := by
  exact getLast_append (Attribute.getLast_printAll fun a ha => (h.attributes a ha).1)
    e.body.getLast_print

/-- The attributes behind a selector are read back, and leave the end of the line. -/
theorem parse_tail (h : e.Printable) (line : Nat) :
    Attribute.parse line e.tail.trim = .ok (e.attributes, e.body.print.drop 1) := by
  have ht : Attribute.parse line e.tail.trim = Attribute.parse line e.tail := by
    rcases tail_eq h with he | ⟨c, t, he, hc⟩
    · rw [he]
      rfl
    · have hl := getLast_tail h
      rw [he, List.getLast?_cons_cons] at hl
      have hs : trim (c :: t) = c :: t := trim_eq_self (by simpa using hc) hl
      have hb := trim_blank_append isBlank_space (c :: t)
      have hp := Attribute.parse_blank_append isInlineBlank_space line (c :: t)
      rw [List.singleton_append] at hb hp
      rw [he, hb, hs, hp]
  rw [ht, tail, Attribute.parse_printAll_append (fun a ha => (h.attributes a ha).1)
    (Body.follows_print h.body), Body.parse_print, Body.trim_print]
  simp [Except.map]

theorem head_print (h : e.Printable) : e.print.head? = e.tag.head? := by
  obtain ⟨c, t, ht⟩ := List.exists_cons_of_ne_nil h.selector.tag_ne
  simp [print, Selector.print, Element.tag, ht]

theorem trim_print (h : e.Printable) : e.print.trim = e.print := by
  have hs := Selector.print_no_blank h.selector
  apply trim_eq_self
  · rw [head_print h]
    exact fun c hc => (h.selector.tag c (List.mem_of_head? hc)).1
  · exact getLast_append (fun c hc => hs c (List.mem_of_getLast? hc)) (getLast_tail h)

theorem firstWord_print (h : e.Printable) : e.print.firstWord = e.selector.print := by
  rw [firstWord, trim_print h, print]
  apply takeWhile_append_of_stop
  · intro c hc
    simp [isInlineBlank_of_not_isBlank (Selector.print_no_blank h.selector c hc)]
  · rcases tail_eq h with ht | ⟨c, t, ht, -⟩
    · simp [ht]
    · rw [ht]
      simp
      decide

theorem no_newline_print (h : e.Printable) : '\n' ∉ e.print := by
  have hs : '\n' ∉ e.selector.print := fun hm =>
    absurd (Selector.print_no_blank h.selector _ hm) (by decide)
  have ha : ∀ a ∈ e.attributes, '\n' ∉ a.print := by
    intro a hm
    obtain ⟨hp, hv⟩ := h.attributes a hm
    have hn : '\n' ∉ a.name := fun hc => absurd (hp.name _ hc).1 (by decide)
    simp [Attribute.print, hn, hv]
  simpa [print, tail, Attribute.printAll, hs, Body.no_newline_print h.body] using ha

end Element
end IndentMarkup
