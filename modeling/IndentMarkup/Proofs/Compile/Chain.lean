import IndentMarkup.Proofs.Compile.Layout
import IndentMarkup.Proofs.Compile.Reindent

/-! A chain stands for nested lines. Its parts may as well be written one below the other, each a
level deeper than the one before; only the lines that errors name differ. -/
namespace IndentMarkup

@[simp] theorem CompileError.code_later (e : CompileError) (k : Nat) : (e.later k).code = e.code := by
  cases e <;> rfl

namespace Compile
open Html Text

/-- Parts that can stand on lines of their own: none is blank, none would be verbatim, and what is
left behind the attributes of an outer part neither begins content nor closes the element. -/
structure Separable (token : Char) (parts : List Text) : Prop where
  visible : ∀ part ∈ parts, part.trim ≠ []
  not_verbatim : ∀ part ∈ parts, part.trim.head? ≠ some token
  outer : ∀ part ∈ parts.dropLast, ∀ number element rest,
    parseHead number part = .ok (element, rest) →
      rest.head? ≠ some '<' ∧ ¬(rest.head? = some '/' ∧ rest.getLast? = some '/')

theorem Separable.tail {token : Char} {part : Text} {parts : List Text}
    (h : Separable token (part :: parts)) (hne : parts ≠ []) : Separable token parts where
  visible p hp := h.visible p (List.mem_cons_of_mem part hp)
  not_verbatim p hp := h.not_verbatim p (List.mem_cons_of_mem part hp)
  outer p hp := by
    apply h.outer p
    rw [List.dropLast_cons_of_ne_nil hne]
    exact List.mem_cons_of_mem part hp

/-- The parts of a chain as lines of their own, from a level on. -/
def partLines (unit : Text) : (level : Nat) → List Text → List Text
  | _, [] => []
  | level, part :: parts =>
    ((List.replicate level unit).flatten ++ part.trim) :: partLines unit (level + 1) parts

/-- Nested elements as entries of their own, from a level on. -/
def nestedEntries (unit : Text) : (level : Nat) → List Element → List Entry
  | _, [] => []
  | level, e :: elements =>
    ⟨(List.replicate level unit).flatten, .nested [e]⟩ :: nestedEntries unit (level + 1) elements

section Parts

variable {token : Char} {line part : Text}

theorem parseHead_trim (number : Nat) (part : Text) :
    parseHead number part.trim = parseHead number part := by
  simp only [parseHead, trim_trim]

theorem elementsOf_trim (part : Text) : elementsOf [part.trim] = elementsOf [part] := by
  funext number below
  simp only [elementsOf, Reading.head, parseHead_trim]

/-- What a part leaves behind its attributes is the same on every line. -/
theorem parse_of_parseHead {number : Nat} {element : Element} {rest : Text}
    (h : parseHead number part = .ok (element, rest)) (n : Nat) :
    ∃ attributes, Attribute.parse n (partTail part) = .ok (attributes, rest) := by
  rcases Reading.parseHead_cases part with ⟨p, hall⟩ | ⟨element', rest', hall⟩
  · simp [hall] at h
  · obtain ⟨rfl, rfl⟩ : element' = element ∧ rest' = rest := by simpa [hall] using h
    obtain ⟨attributes, ha, -⟩ := parseHead_eq_ok (hall n)
    exact ⟨attributes, ha⟩

theorem exists_chainParts_eq_cons (t : Text) :
    ∃ first others, chainParts t = first :: others ∧ first <+: t := by
  obtain ⟨first, others, hp, ht⟩ := exists_pieces_eq_cons chainMark t
  exact ⟨first, _, by rw [chainParts, hp], ht⟩

/-- A line whose parts can stand alone is not verbatim itself. -/
theorem additionOf_of_separable (h : Separable token (chainParts line.trim)) :
    additionOf token line = (elementsOf (chainParts line.trim)).map .nested := by
  obtain ⟨first, others, hparts, hfirst⟩ := exists_chainParts_eq_cons line.trim
  have hmem : first ∈ chainParts line.trim := by simp [hparts]
  have hvisible := h.visible first hmem
  have hne : first ≠ [] := by
    rintro rfl
    exact hvisible rfl
  obtain ⟨c, text, rfl⟩ := List.exists_cons_of_ne_nil hne
  obtain ⟨rest, hline⟩ := hfirst
  have hc : isBlank c = false := head_trim line c (by simp [← hline])
  have hstart : trimStart (c :: text) = c :: text := trimStart_eq_self (by simpa using hc)
  have htoken : c ≠ token := by
    have hn := h.not_verbatim _ hmem
    rw [trim, hstart, trimEnd_cons hc] at hn
    simpa using hn
  unfold additionOf
  simp only [← hline, List.cons_append, htoken, if_false]

/-- A part on a line of its own says what it says as the end of a chain. -/
theorem additionOf_part (hs : Separable token [part]) (hm : ¬chainMark <:+: part) {w : Text}
    (hw : ∀ c ∈ w, isInlineBlank c = true) :
    additionOf token (w ++ part.trim) = (elementsOf [part]).map .nested := by
  have htrim : trim (w ++ part.trim) = part.trim := by
    rw [trim_blank_append fun c hc => isBlank_of_isInlineBlank (hw c hc), trim_trim]
  have hparts : chainParts (trim (w ++ part.trim)) = [part.trim] := by
    rw [htrim, chainParts_of_unmarked fun hi => hm (hi.trans (trim_isInfix part))]
  have hs' : Separable token (chainParts (trim (w ++ part.trim))) := by
    rw [hparts]
    exact ⟨by simpa using hs.visible, by simpa using hs.not_verbatim, by simp⟩
  rw [additionOf_of_separable hs', hparts, elementsOf_trim]

theorem elementsOf_last {n k : Nat} {below : List Text} {elements : List Element}
    (h : elementsOf [part] n below = .ok (elements, k)) : ∃ e, elements = [e] := by
  rcases Reading.parseHead_cases part with ⟨p, hp⟩ | ⟨element, rest, hp⟩
  · rw [elementsOf, Reading.head_of_error (hp n)] at h
    simp at h
  · rw [elementsOf, Reading.head_of_ok (hp n)] at h
    obtain ⟨body, -, rfl⟩ := Reading.map_eq_ok h
    exact ⟨_, rfl⟩

/-- Where nothing to read is left behind its attributes, an outer part reads alone as in its chain.
-/
theorem elementsOf_outer {n : Nat} {element : Element} {rest : Text}
    (hp : parseHead n part = .ok (element, rest)) (hr : rest.head? ≠ some '<')
    (hs : ¬(rest.head? = some '/' ∧ rest.getLast? = some '/')) (below : List Text) :
    elementsOf [part] n below = .ok ([element], 0) := by
  have hbody : bodyOf rest = .done .children := by
    rw [bodyOf, if_neg hr, if_neg hs]
  have hchildren : { element with body := .children } = element := by
    rw [← (parseHead_eq hp).2.1]
  rw [elementsOf, Reading.head_of_ok hp, hbody, Reading.map, Reading.done]
  simp [Except.map, hchildren]

end Parts

/-- What depends on the line number in its errors only gives the same everywhere, up to the lines
that errors name. -/
theorem cases_of_later {α : Type} (f : Nat → Except CompileError α)
    (h : ∀ n k, f (n + k) = (f n).mapError (·.later k)) (n m : Nat) :
    (∃ e e', f n = .error e ∧ f m = .error e' ∧ e'.code = e.code) ∨
      ∃ a, f n = .ok a ∧ f m = .ok a := by
  have hn := h 0 n
  have hm := h 0 m
  rw [Nat.zero_add] at hn hm
  cases h0 : f 0 with
  | error e =>
    rw [h0] at hn hm
    exact .inl ⟨_, _, hn, hm, by simp⟩
  | ok a =>
    rw [h0] at hn hm
    exact .inr ⟨a, hn, hm⟩

section Lines

variable {token : Char} {unit part : Text}

theorem leadingBlanks_partLine (hu : IsUnit unit) (level : Nat) (part : Text) :
    leadingBlanks ((List.replicate level unit).flatten ++ part.trim) =
      (List.replicate level unit).flatten :=
  leadingBlanks_append (Indentation.isInlineBlank_indent hu.blank level) fun c hc =>
    isInlineBlank_of_not_isBlank (head_trim part c hc)

/-- A line that says some elements. -/
theorem entries_of_elements {line : Text} {parts : List Text}
    (ha : additionOf token line = (elementsOf parts).map .nested) (number : Nat)
    (below : List Text) :
    entries token number (line :: below) =
      match elementsOf parts (number + 1) below with
      | .error e => .error e
      | .ok (elements, k) => (entries token (number + 1 + k) (below.drop k)).map
          (⟨line.leadingBlanks, .nested elements⟩ :: ·) := by
  cases he : elementsOf parts (number + 1) below with
  | error e =>
    have hr : additionOf token line (number + 1) below = .error e := by
      rw [ha]
      exact Reading.map_eq_error.mpr he
    exact entries_cons_of_error hr
  | ok r =>
    have hr : additionOf token line (number + 1) below = .ok (.nested r.1, r.2) := by
      rw [ha]
      exact Reading.map_of_ok he _
    exact entries_cons_of_ok hr

theorem entries_partLine (hu : IsUnit unit) (hs : Separable token [part])
    (hm : ¬chainMark <:+: part) (level number : Nat) (below : List Text) :
    entries token number (((List.replicate level unit).flatten ++ part.trim) :: below) =
      match elementsOf [part] (number + 1) below with
      | .error e => .error e
      | .ok (elements, k) => (entries token (number + 1 + k) (below.drop k)).map
          (⟨(List.replicate level unit).flatten, .nested elements⟩ :: ·) := by
  have ha := additionOf_part hs hm (Indentation.isInlineBlank_indent hu.blank level)
  rw [entries_of_elements ha, leadingBlanks_partLine hu]

/-- The lines of some parts are read as their chain is: they have the same elements, one for each
line, or an error with the same code. -/
def ReadAlike (token : Char) (unit : Text) (parts : List Text) : Prop :=
  ∀ (level n m : Nat) (below : List Text),
    (∃ e e', elementsOf parts n below = .error e ∧
      entries token m (partLines unit level parts ++ below) = .error e' ∧ e'.code = e.code) ∨
    ∃ elements k, elementsOf parts n below = .ok (elements, k) ∧
      (elements ≠ [] ∧ ∀ e ∈ elements.dropLast, e.body = .children) ∧
      entries token m (partLines unit level parts ++ below) =
        (entries token (m + parts.length + k) (below.drop k)).map
          (nestedEntries unit level elements ++ ·)

theorem readAlike_last (hu : IsUnit unit) (hs : Separable token [part])
    (hm : ¬chainMark <:+: part) : ReadAlike token unit [part] := by
  intro level n m below
  have hline := entries_partLine hu hs hm level m below
  have hlater := (lawful_elementsOf [part]).later
  rcases cases_of_later (elementsOf [part] · below) (fun n k => hlater n k below) n (m + 1) with
    ⟨e, e', he, he', hcode⟩ | ⟨⟨elements, k⟩, he, he'⟩
  · simp only [he'] at hline
    exact .inl ⟨e, e', he, hline, hcode⟩
  · simp only [he'] at hline
    obtain ⟨element, rfl⟩ := elementsOf_last he
    exact .inr ⟨[element], k, he, by simp, hline⟩

theorem readAlike_cons (hu : IsUnit unit) {parts : List Text} (hne : parts ≠ [])
    (hs : Separable token (part :: parts)) (hm : ¬chainMark <:+: part)
    (h : ReadAlike token unit parts) : ReadAlike token unit (part :: parts) := by
  intro level n m below
  have hpart : Separable token [part] :=
    ⟨by simpa using hs.visible part (by simp), by simpa using hs.not_verbatim part (by simp),
      by simp⟩
  have hline := entries_partLine hu hpart hm level m (partLines unit (level + 1) parts ++ below)
  rcases Reading.parseHead_cases part with ⟨p, hp⟩ | ⟨element, rest, hp⟩
  · have he : elementsOf [part] (m + 1) (partLines unit (level + 1) parts ++ below) =
        .error (.unclosedPlaceholder p (m + 1)) := Reading.head_of_error (hp (m + 1)) _ _
    simp only [he] at hline
    refine .inl ⟨.unclosedPlaceholder p n, .unclosedPlaceholder p (m + 1), ?_, hline, rfl⟩
    rw [elementsOf_cons hne, Reading.head_of_error (hp n)]
  · obtain ⟨hcontent, hclosing⟩ :=
      hs.outer part (by simp [List.dropLast_cons_of_ne_nil hne]) n element rest (hp n)
    simp only [elementsOf_outer (hp (m + 1)) hcontent hclosing] at hline
    change entries token m (partLines unit level (part :: parts) ++ below) = _ at hline
    rw [elementsOf_cons hne, Reading.head_of_ok (hp n), hline]
    rcases h (level + 1) n (m + 1) below with
      ⟨e, e', he, he', hcode⟩ | ⟨elements, k, he, ⟨hel, hbody⟩, he'⟩
    · refine .inl ⟨e, e', Reading.map_eq_error.mpr he, ?_, hcode⟩
      simp [he', Except.map]
    · refine .inr ⟨element :: elements, k, Reading.map_of_ok he _, ⟨by simp, ?_⟩, ?_⟩
      · rw [List.dropLast_cons_of_ne_nil hel]
        exact List.forall_mem_cons.mpr ⟨(parseHead_eq (hp n)).2.1, hbody⟩
      · have hn : m + 1 + parts.length + k = m + (part :: parts).length + k := by
          simp only [List.length_cons]
          omega
        simp only [Nat.add_zero, List.drop_zero, he', hn]
        cases entries token (m + (part :: parts).length + k) (below.drop k) <;> rfl

theorem readAlike_of_separable (hu : IsUnit unit) {parts : List Text} (hne : parts ≠ [])
    (hs : Separable token parts) (hm : ∀ part ∈ parts, ¬chainMark <:+: part) :
    ReadAlike token unit parts := by
  induction parts with
  | nil => exact absurd rfl hne
  | cons part parts ih =>
    have hpart : ¬chainMark <:+: part := hm part List.mem_cons_self
    by_cases hlast : parts = []
    · subst hlast
      exact readAlike_last hu hs hpart
    · have hrest := ih hlast (hs.tail hlast) fun p hp => hm p (List.mem_cons_of_mem part hp)
      exact readAlike_cons hu hlast hs hpart hrest

end Lines

namespace Draft

variable {unit : Text} {d : Draft}

theorem add_of_level {e : Entry} {level : Nat}
    (h : d.indentation.levelOf e.blanks = (level, d.indentation)) :
    d.add e = { d with
      page := e.addition.write d.indentation.unit level
        (d.page.closeFrom d.indentation.unit level) } := by
  rw [add, h]

theorem levelOf_copies (hu : IsUnit unit) (hd : d.indentation = ⟨unit⟩) (level : Nat) :
    d.indentation.levelOf (List.replicate level unit).flatten = (level, d.indentation) := by
  have hunit : d.indentation.unit = (List.replicate 1 unit).flatten := by simp [hd]
  rw [levelOf_replicate hu hunit, Nat.div_one]
  by_cases hl : level = 0
  · simp [hl]
  · simp [hl]

/-- Elements that are added one by one end up as those of a chain do: what comes a level deeper does
not close an open element. -/
theorem foldl_nestedEntries (hu : IsUnit unit) {elements : List Element} (hne : elements ≠ [])
    (ho : ∀ e ∈ elements.dropLast, e.body = .children) (hd : d.indentation = ⟨unit⟩)
    (level : Nat) :
    (nestedEntries unit level elements).foldl Draft.add d =
      { d with page := (d.page.closeFrom unit level).writeNested unit level elements } := by
  induction elements generalizing d level with
  | nil => exact absurd rfl hne
  | cons e elements ih =>
    let next : Draft := { d with page := (d.page.closeFrom unit level).writeElement unit level e }
    have hadd : d.add ⟨(List.replicate level unit).flatten, .nested [e]⟩ = next := by
      rw [add_of_level (levelOf_copies hu hd level), hd]
      exact congrArg (Draft.mk · _) hd.symm
    rw [nestedEntries, List.foldl_cons, hadd]
    by_cases hlast : elements = []
    · subst hlast
      rfl
    · rw [List.dropLast_cons_of_ne_nil hlast, List.forall_mem_cons] at ho
      have hopen : ∀ t ∈ next.page.openTags.head?, t.level < level + 1 := by
        simp [next, Page.tagsOf, ho.1]
      rw [ih hlast ho.2 (show next.indentation = ⟨unit⟩ from hd), Page.closeFrom_of_lt hopen]
      rfl

theorem add_chain (hu : IsUnit unit) {elements : List Element} (hne : elements ≠ [])
    (ho : ∀ e ∈ elements.dropLast, e.body = .children) (hd : d.indentation = ⟨unit⟩)
    (line : Text) :
    d.add ⟨line.leadingBlanks, .nested elements⟩ =
      (nestedEntries unit (Indentation.levelOf ⟨unit⟩ line).1 elements).foldl Draft.add d := by
  have hkeeps : (Indentation.levelOf ⟨unit⟩ line).2 = ⟨unit⟩ := by
    rw [Indentation.levelOf_snd, if_neg hu.ne_nil]
  have hlevel : d.indentation.levelOf line.leadingBlanks =
      ((Indentation.levelOf ⟨unit⟩ line).1, d.indentation) := by
    rw [levelOf_leadingBlanks, hd]
    exact Prod.ext rfl hkeeps
  rw [foldl_nestedEntries hu hne ho hd, add_of_level hlevel, hd]
  rfl

end Draft

namespace State

/-- Only spaces and tabs become the unit. -/
theorem isInlineBlank_readLevel {s : State} (h : ∀ c ∈ s.unit, isInlineBlank c = true) :
    ∀ c ∈ s.readLevel.unit, isInlineBlank c = true := by
  by_cases hu : s.unit = []
  · rw [unit, readLevel_indentation, if_pos hu]
    exact fun c hc => List.mem_takeWhile_imp hc
  · rwa [readLevel_unit hu]

theorem Reaches.isInlineBlank_unit {options : Options} {source : Text} {past : List LineRecord}
    {t : State} (h : (initial options source).Reaches past t) :
    ∀ c ∈ t.unit, isInlineBlank c = true := by
  induction h with
  | start => exact fun c hc => absurd hc List.not_mem_nil
  | @line past t next _ _ hs ih =>
    have hu : next.unit = t.readLevel.unit := by rw [← t.step_unit, hs]
    rw [hu]
    exact isInlineBlank_readLevel ih

end State

/-- What is read of a source that compiles: its entries, and the unit that they leave. -/
theorem exists_entries_of_unit {options : Options} {source u : Text}
    (h : (initial options source).run.map State.unit = .ok u) :
    (∀ c ∈ u, isInlineBlank c = true) ∧ ∃ es, entries options.token 0 source.lines = .ok es ∧
      (es.foldl Draft.add {}).indentation = ⟨u⟩ := by
  cases hr : (initial options source).run with
  | error e => simp [hr, Except.map] at h
  | ok s =>
    obtain rfl : s.unit = u := by simpa [hr, Except.map] using h
    obtain ⟨past, t, ht, -, rfl⟩ := State.exists_of_run hr
    obtain ⟨es, hes, hd⟩ := State.exists_entries_of_run hr
    refine ⟨ht.isInlineBlank_unit, es, hes, ?_⟩
    exact (congrArg Draft.indentation hd).symm

theorem lines_partLines {unit : Text} (hu : IsUnit unit) {parts : List Text}
    (h : ∀ part ∈ parts, '\n' ∉ part) (level : Nat) :
    ∀ line ∈ partLines unit level parts, '\n' ∉ line := by
  induction parts generalizing level with
  | nil => exact fun line hl => absurd hl List.not_mem_nil
  | cons part parts ih =>
    intro line hl
    rcases List.mem_cons.mp hl with rfl | hl
    · have hp : '\n' ∉ part.trim := fun hm => h part List.mem_cons_self (trim_subset part hm)
      exact no_newline_indent hu hp level
    · exact ih (fun p hp => h p (List.mem_cons_of_mem part hp)) (level + 1) line hl

/-- A chain compiles as its parts do on lines of their own, each a level deeper than the one before:
to the same HTML, or to an error with the same code. This holds behind every source that compiles,
ends with a line feed and leaves a unit, and in front of any text. -/
theorem compile_chain {options : Options} {front line u : Text}
    (hf : front = [] ∨ front.getLast? = some '\n')
    (hu : (initial options front).run.map State.unit = .ok u) (hne : u ≠ []) (hn : '\n' ∉ line)
    (hs : Separable options.token (chainParts line.trim)) (back : Text) :
    let level := (Indentation.levelOf ⟨u⟩ line).1
    let nested := (partLines u level (chainParts line.trim)).flatMap (· ++ ['\n'])
    (compile options (front ++ (line ++ '\n' :: back))).mapError CompileError.code =
      (compile options (front ++ (nested ++ back))).mapError CompileError.code := by
  intro level nested
  obtain ⟨hblank, es, hes, hd⟩ := exists_entries_of_unit hu
  have hunit : IsUnit u := ⟨hne, hblank⟩
  have hparts : ∀ part ∈ chainParts line.trim, '\n' ∉ part ∧ ¬chainMark <:+: part := by
    intro part hp
    refine ⟨fun hm => hn (trim_subset line ((State.infix_of_mem_chainParts hp).subset hm)), ?_⟩
    exact not_infix_of_mem_pieces (by decide) (State.mem_pieces_of_mem_chainParts hp)
  obtain ⟨first, others, hcons, -⟩ := exists_chainParts_eq_cons line.trim
  have hlines : lines (nested ++ back) = partLines u level (chainParts line.trim) ++ lines back :=
    lines_flatMap_append (lines_partLines hunit (fun p hp => (hparts p hp).1) level) back
  have hchain := entries_of_elements (additionOf_of_separable hs) front.lines.length back.lines
  rw [compile_append_eq hf hes, compile_append_eq hf hes, lines_append_newline hn, hlines]
  rcases readAlike_of_separable hunit (by simp [hcons]) hs (fun p hp => (hparts p hp).2) level
    (front.lines.length + 1) front.lines.length back.lines with
    ⟨e, e', he, he', hcode⟩ | ⟨elements, k, he, ⟨hel, hbody⟩, he'⟩
  · simp only [he] at hchain
    simp [hchain, he', Except.map, Except.mapError, hcode]
  · simp only [he] at hchain
    rw [hchain, he']
    -- the lines below are counted from different numbers on the two sides
    rcases cases_of_later (entries options.token · (back.lines.drop k))
      (fun n j => entries_later n j _) (front.lines.length + 1 + k)
      (front.lines.length + (chainParts line.trim).length + k) with
      ⟨e, e', hb, hb', hcode⟩ | ⟨more, hb, hb'⟩
    · simp [hb, hb', Except.map, Except.mapError, hcode]
    · have hdraft := Draft.add_chain hunit hel hbody hd line
      rw [hb, hb']
      simp only [Except.map, Except.mapError, List.foldl_cons, List.foldl_append]
      rw [hdraft]

/-- Three blanks are one level of two and one left over. The last part takes the line below, and the
line behind that stands inside the first part. -/
theorem compile_chain_three_parts :
    let line : Text := "   ul.x \\-\\ li y=1 / \\-\\ p <c".toList
    let nested : Text := "  ul.x\n    li y=1 /\n      p <c\n".toList
    let html : Text := ("<a>\n  <b>\n  </b>\n  <ul class=\"x\">\n    <li y=\"1 /\">\n".toList ++
      "      <p>c d</p>\n    </li>\n    <e>\n    </e>\n  </ul>\n</a>\n".toList)
    Separable '\x60' (chainParts line.trim) ∧
      compile {} ("a\n  b\n".toList ++ (line ++ '\n' :: "d>\n    e".toList)) = .ok html ∧
      (compile {} ("a\n  b\n".toList ++ (nested ++ "d>\n    e".toList))).mapError
        CompileError.code = .ok html := by
  intro line nested html
  have hparts : chainParts line.trim = ["ul.x ".toList, " li y=1 / ".toList, " p <c".toList] := by
    decide +kernel
  have hrest : ∀ part ∈ ["ul.x ".toList, " li y=1 / ".toList],
      (Attribute.parse 0 (partTail part)).map Prod.snd = .ok [] := by
    decide +kernel
  have hs : Separable '\x60' (chainParts line.trim) := by
    rw [hparts]
    refine ⟨by decide, by decide, fun part hp number element rest h => ?_⟩
    obtain ⟨attributes, ha⟩ := parse_of_parseHead h 0
    have hempty : rest = [] := by simpa [ha, Except.map] using hrest part hp
    simp [hempty]
  have hu : (initial {} "a\n  b\n".toList).run.map State.unit = .ok "  ".toList := by
    decide +kernel
  have hc : compile {} ("a\n  b\n".toList ++ (line ++ '\n' :: "d>\n    e".toList)) = .ok html := by
    decide +kernel
  have hnested : (partLines "  ".toList (Indentation.levelOf ⟨"  ".toList⟩ line).1
      (chainParts line.trim)).flatMap (· ++ ['\n']) = nested := by
    decide +kernel
  have h := compile_chain (.inr (by decide)) hu (by decide) (by decide) hs "d>\n    e".toList
  simp only [hnested] at h
  refine ⟨hs, hc, ?_⟩
  rw [← h, hc]
  rfl

end Compile
end IndentMarkup
