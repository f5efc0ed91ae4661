import IndentMarkup.Proofs.Compile.History
import IndentMarkup.Proofs.Markup.Element
import IndentMarkup.Proofs.Text.Nesting

/-! The canonical notation of a document: a line for each node, indented by its depth. -/
namespace IndentMarkup

namespace Compile

/-- What can indent a line: spaces and tabs, at least one. -/
structure IsUnit (unit : Text) : Prop where
  ne_nil : unit ≠ []
  blank : ∀ c ∈ unit, Text.isInlineBlank c = true

/-- A line of source at a level. -/
def sourceLine (unit : Text) (level : Nat) (content : Text) : Text :=
  (List.replicate level unit).flatten ++ content ++ "\n".toList

/-- An element whose line stands for it alone. -/
structure CanonicalElement (token : Char) (e : Element) : Prop where
  printable : e.Printable
  not_verbatim : e.tag.head? ≠ some token
  not_chain : ¬chainMark <:+: e.print

/-- A text that can follow the token on a line. -/
structure CanonicalText (token : Char) (text : Text) : Prop where
  token_visible : Text.isBlank token = false
  trimmed : text.trimEnd = text
  no_newline : '\n' ∉ text

end Compile

namespace Html.Node
open Compile

mutual

/-- The lines of a node and of its children. -/
def print (token : Char) (unit : Text) (level : Nat) : Node → Text
  | element s attributes children =>
    sourceLine unit level (Element.print ⟨s, attributes, .children⟩) ++
      printAll token unit (level + 1) children
  | inline s attributes text => sourceLine unit level (Element.print ⟨s, attributes, .inline text⟩)
  | selfClosing s attributes => sourceLine unit level (Element.print ⟨s, attributes, .selfClosing⟩)
  | verbatim text => sourceLine unit level (token :: text)

def printAll (token : Char) (unit : Text) (level : Nat) : List Node → Text
  | [] => []
  | n :: nodes => print token unit level n ++ printAll token unit level nodes

end

/-- A node all of whose lines are canonical. -/
inductive Canonical (token : Char) : Node → Prop
  | element {s : Selector} {attributes : List Attribute} {children : List Node} :
      CanonicalElement token ⟨s, attributes, .children⟩ →
      (∀ n ∈ children, Canonical token n) → Canonical token (.element s attributes children)
  | inline {s : Selector} {attributes : List Attribute} {text : Text} :
      CanonicalElement token ⟨s, attributes, .inline text⟩ →
      Canonical token (.inline s attributes text)
  | selfClosing {s : Selector} {attributes : List Attribute} :
      CanonicalElement token ⟨s, attributes, .selfClosing⟩ →
      Canonical token (.selfClosing s attributes)
  | verbatim {text : Text} : CanonicalText token text → Canonical token (.verbatim text)

end Html.Node

/-- The tag that a piece leaves open. -/
def Html.Piece.tags (level : Nat) : Piece → List OpenTag
  | element e => Page.tagsOf level e
  | _ => []

namespace Compile
open Html Text

theorem parseHead_print {e : Element} (h : e.Printable) (line : Nat) :
    parseHead line e.print = .ok ({ e with body := .children }, e.body.print.drop 1) := by
  have hd : e.print.drop e.selector.print.length = e.tail := by
    rw [Element.print, List.drop_left]
  unfold parseHead
  simp only [Element.trim_print h, Element.firstWord_print h, hd, Element.parse_tail h line,
    Selector.ofText_print h.selector]
  rfl

theorem chainParts_of_unmarked {content : Text} (h : ¬chainMark <:+: content) :
    chainParts content = [content] := by
  unfold chainParts
  rw [pieces_of_unmarked (by decide) h]
  rfl

theorem unwrap_brackets {text : Text} (h : trim text = text) :
    unwrap ('<' :: (text ++ ['>'])) = text := by
  rw [unwrap, Body.trim_brackets, List.drop_one, List.tail_cons, List.dropLast_concat, h]

namespace State

theorem readBody_print {body : Body} {last : Option Attribute} (h : body.Printable last)
    (s : State) : s.readBody (body.print.drop 1) = (.ok body, s) := by
  cases body with
  | children => rfl
  | selfClosing => rfl
  | inline text =>
    obtain ⟨ht, -, hc, -⟩ := h
    have hp : (Body.inline text).print.drop 1 = '<' :: (text ++ ['>']) := rfl
    have hl : Text.bracketLevel ('<' :: (text ++ ['>'])) = 0 := by
      rw [bracketLevel_eq_count]
      simp [hc]
    rw [hp]
    unfold readBody
    simp [hl, foldLines, unwrap_brackets ht]

theorem writeChain_print {e : Element} (h : e.Printable) (s : State) :
    s.writeChain [e.print] = (.ok (), s.writeElement e) := by
  simp only [writeChain, parseHead_print h, readBody_print h.body]

/-- What the content of a canonical line stands for. -/
inductive StandsFor (token : Char) : Text → Piece → Prop
  | element {e : Element} : CanonicalElement token e → StandsFor token e.print (.element e)
  | verbatim {text : Text} :
      CanonicalText token text → StandsFor token (token :: text) (.verbatim text)

theorem StandsFor.trimmed {token : Char} {content : Text} {piece : Piece}
    (h : StandsFor token content piece) : trim content = content := by
  cases h with
  | element he => exact Element.trim_print he.printable
  | @verbatim text ht =>
    have hl := getLast_of_trimEnd_eq_self ht.trimmed
    apply trim_eq_self
    · simpa using ht.token_visible
    · exact getLast_append (a := [token]) (by simpa using ht.token_visible) hl

theorem StandsFor.exists_cons {token : Char} {content : Text} {piece : Piece}
    (h : StandsFor token content piece) :
    ∃ c t, content = c :: t ∧ isBlank c = false ∧ '\n' ∉ content := by
  cases h with
  | @element e he =>
    have hp := he.printable
    have hh := Element.head_print hp
    obtain ⟨c, t, ht⟩ := List.exists_cons_of_ne_nil hp.selector.tag_ne
    rw [Element.tag, ht] at hh
    obtain ⟨t', ht'⟩ := List.head?_eq_some_iff.mp hh
    exact ⟨c, t', ht', (hp.selector.tag c (by simp [ht])).1, Element.no_newline_print hp⟩
  | @verbatim text ht =>
    have hn : token ≠ '\n' := by
      rintro rfl
      exact absurd ht.token_visible (by decide)
    exact ⟨token, text, rfl, ht.token_visible, by simp [ht.no_newline, hn.symm]⟩

theorem nextLine?_append {s : State} {line rest : Text} (h : s.remaining = line ++ '\n' :: rest)
    (hl : '\n' ∉ line) :
    ∃ s', s.nextLine? = some (line, s') ∧ s'.remaining = rest ∧ Reads s s' := by
  have hb : ∀ c ∈ line, (c != '\n') = true := by
    intro c hc
    have : c ≠ '\n' := fun he => hl (he ▸ hc)
    simpa using this
  have he : s.atEnd = false := by simp [atEnd, h]
  have ht : s.remaining.takeWhile (· != '\n') = line := by
    rw [h, takeWhile_append_of_stop hb (by simp)]
  have hd : s.remaining.dropWhile (· != '\n') = '\n' :: rest := by
    rw [h, dropWhile_append_of_stop hb (by simp)]
  unfold nextLine?
  simp only [he, ht, hd, Bool.false_eq_true, if_false]
  exact ⟨_, rfl, rfl, rfl, rfl, rfl, rfl⟩

/-- A canonical line is read whole, and writes what it stands for. -/
theorem processLine_standsFor {s : State} {w content rest : Text} {piece : Piece}
    (h : s.remaining = w ++ content ++ '\n' :: rest) (hw : ∀ c ∈ w, isInlineBlank c = true)
    (ha : StandsFor s.token content piece) :
    ∃ next, s.processLine = (.ok (), next) ∧ next.remaining = rest ∧ next.token = s.token ∧
      next.indentation = s.indentation ∧
      next.page.openTags = piece.tags s.level ++ s.page.openTags ∧
      next.page.lines.toList = s.page.lines.toList ++ [⟨s.unit, s.level, piece⟩] := by
  obtain ⟨c, t, hc, -, hn⟩ := ha.exists_cons
  have hnl : '\n' ∉ w ++ content := by
    have : '\n' ∉ w := fun hm => absurd (hw _ hm) (by decide)
    simp [this, hn]
  have htrim : trim (w ++ content) = content := by
    rw [trim_blank_append fun c hc => isBlank_of_isInlineBlank (hw c hc), ha.trimmed]
  obtain ⟨s', hl, hr, hs⟩ := nextLine?_append h hnl
  have hu : s'.unit = s.unit := congrArg Indentation.unit hs.indentation
  have htok := hs.token
  unfold processLine
  simp only [hl, htrim]
  cases ha with
  | @element e he =>
    have hct : c ≠ s'.token := by
      have hh := Element.head_print he.printable
      have := he.not_verbatim
      rw [← hh, hc, List.head?_cons, ← htok] at this
      exact fun h => this (congrArg some h)
    refine ⟨s'.writeElement e, ?_, hr, htok, hs.indentation, ?_, ?_⟩
    · have hp := chainParts_of_unmarked he.not_chain
      have hw := writeChain_print he.printable s'
      rw [← hp, hc] at hw
      simp only [hc, hct, if_false, hw]
    · simp [writeElement, Piece.tags, hs.page, hs.level]
    · simp [writeElement, hs.page, hs.level, hu]
  | @verbatim text ht =>
    refine ⟨s'.writeVerbatim text, by simp [htok], hr, htok, hs.indentation, ?_, ?_⟩
    · simp [writeVerbatim, Piece.tags, hs.page]
    · simp [writeVerbatim, hs.page, hs.level, hu]

end State
end Compile
end IndentMarkup
