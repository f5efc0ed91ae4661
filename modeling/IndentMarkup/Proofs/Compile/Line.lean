import IndentMarkup.Compile.Run
import IndentMarkup.Proofs.Html.Page
import IndentMarkup.Proofs.Html.Tree
import IndentMarkup.Proofs.Markup.Attribute
import IndentMarkup.Proofs.Markup.Selector
import IndentMarkup.Proofs.Text.Lines

/-! What one line of source can do: read further lines, and add a verbatim text or a chain of
elements to the page. All that is said of whole runs rests on `step_page`. -/
namespace IndentMarkup.Compile
open Html

/-- The selector at the front of a part of a chain. -/
def partSelector (part : Text) : Selector :=
  .ofText part.trim.firstWord

/-- Elements that the parts of a line stand for, or those before a part that fails. -/
structure ChainOf (parts : List Text) (elements : List Element) : Prop where
  selectors : elements.map (·.selector) <+: parts.map partSelector
  outer : ∀ e ∈ elements.dropLast, e.body = .children
  no_newline : ∀ e ∈ elements, '\n' ∉ (Piece.element e).render

theorem ChainOf.nil (parts : List Text) : ChainOf parts [] :=
  ⟨by simp, by simp, by simp⟩

theorem ChainOf.single {part : Text} {e : Element} (hs : e.selector = partSelector part)
    (hn : '\n' ∉ (Piece.element e).render) : ChainOf [part] [e] :=
  ⟨by simp [hs], by simp, by simpa using hn⟩

theorem ChainOf.cons {part : Text} {parts : List Text} {e : Element} {elements : List Element}
    (hs : e.selector = partSelector part) (hb : e.body = .children)
    (hn : '\n' ∉ (Piece.element e).render) (h : ChainOf parts elements) :
    ChainOf (part :: parts) (e :: elements) := by
  refine ⟨?_, ?_, ?_⟩
  · simpa [hs, List.cons_prefix_cons] using h.selectors
  · intro d hd
    cases elements with
    | nil => simp at hd
    | cons e' elements =>
      rcases List.mem_cons.mp hd with rfl | hd
      · exact hb
      · exact h.outer d hd
  · intro d hd
    rcases List.mem_cons.mp hd with rfl | hd
    · exact hn
    · exact h.no_newline d hd

theorem mem_intercalate {c : Char} {between : Text} {texts : List Text}
    (h : c ∈ between.intercalate texts) : c ∈ between ∨ ∃ t ∈ texts, c ∈ t := by
  induction texts with
  | nil => simp [List.intercalate] at h
  | cons t texts ih =>
    cases texts with
    | nil => exact .inr ⟨t, by simp, by simpa [List.intercalate] using h⟩
    | cons u texts =>
      have hm : c ∈ t ∨ c ∈ between ∨ c ∈ between.intercalate (u :: texts) := by
        simpa [List.intercalate] using h
      rcases hm with hm | hm | hm
      · exact .inr ⟨t, by simp, hm⟩
      · exact .inl hm
      · rcases ih hm with hm | ⟨v, hv, hm⟩
        · exact .inl hm
        · exact .inr ⟨v, by simp_all, hm⟩

theorem no_newline_opening {s : Selector} {attributes : List Attribute} (ht : '\n' ∉ s.tag)
    (hi : ∀ id ∈ s.id, '\n' ∉ id) (hc : ∀ name ∈ s.classes, '\n' ∉ name)
    (ha : ∀ a ∈ attributes, '\n' ∉ a.name ∧ '\n' ∉ a.value) :
    '\n' ∉ opening s attributes := by
  have hq : ∀ {name value : Text}, '\n' ∉ name → '\n' ∉ value → '\n' ∉ quoted name value := by
    intro name value hn hv
    simp [quoted, hn, hv]
  have hid : '\n' ∉ s.id.elim [] fun id => quoted "id".toList id := by
    cases h : s.id with
    | none => simp
    | some id => exact hq (by decide) (hi id (by simp [h]))
  have hclasses : '\n' ∉ " ".toList.intercalate s.classes := by
    intro h
    rcases mem_intercalate h with h | ⟨name, hn, h⟩
    · exact absurd h (by decide)
    · exact hc name hn h
  simp only [opening, List.mem_append, List.mem_flatMap, not_or, not_exists, not_and]
  refine ⟨⟨⟨⟨by decide, ht⟩, hid⟩, ?_⟩, fun a hm => hq (ha a hm).1 (ha a hm).2⟩
  split
  · simp
  · exact hq (by decide) hclasses

theorem no_newline_ofText {t : Text} {attributes : List Attribute} (ht : '\n' ∉ t)
    (ha : ∀ a ∈ attributes, '\n' ∉ a.name ∧ '\n' ∉ a.value) :
    '\n' ∉ (Selector.ofText t).tag ∧ '\n' ∉ opening (.ofText t) attributes := by
  have htag : '\n' ∉ (Selector.ofText t).tag := by
    intro h
    rcases List.mem_append.mp (Selector.tag_ofText_subset t h) with h | h
    · exact absurd h (by decide)
    · exact ht h
  exact ⟨htag, no_newline_opening htag (fun id hi h => ht (Selector.id_ofText_subset hi h))
    (fun name hn h => ht (Selector.class_ofText_subset hn h)) ha⟩

/-- What stands behind the selector of a part of a chain. -/
def partTail (part : Text) : Text :=
  Text.trim (part.trim.drop part.trim.firstWord.length)

theorem partTail_isInfix (part : Text) : partTail part <:+: part :=
  (Text.trim_isInfix _).trans <| (List.drop_suffix _ _).isInfix.trans (Text.trim_isInfix part)

theorem parseHead_eq_map (line : Nat) (part : Text) :
    parseHead line part = (Attribute.parse line (partTail part)).map fun (attributes, rest) =>
      ({ selector := partSelector part, attributes }, rest) := by
  change (Attribute.parse line (partTail part)).bind _ = _
  cases Attribute.parse line (partTail part) <;> rfl

theorem parseHead_eq_ok {line : Nat} {part rest : Text} {e : Element}
    (h : parseHead line part = .ok (e, rest)) :
    ∃ attributes, Attribute.parse line (partTail part) = .ok (attributes, rest) ∧
      e = { selector := partSelector part, attributes } := by
  rw [parseHead_eq_map] at h
  cases hp : Attribute.parse line (partTail part) with
  | error e => simp [hp, Except.map] at h
  | ok r =>
    obtain ⟨rfl, rfl⟩ : _ = e ∧ r.2 = rest := by simpa [hp, Except.map] using h
    exact ⟨r.1, rfl, rfl⟩

/-- The head of an element, as its part of the line gives it. -/
theorem parseHead_eq {line : Nat} {part rest : Text} {e : Element}
    (h : parseHead line part = .ok (e, rest)) :
    e.selector = partSelector part ∧ e.body = .children ∧
      ('\n' ∉ part → '\n' ∉ rest ∧ '\n' ∉ e.selector.tag ∧
        '\n' ∉ opening e.selector e.attributes) := by
  obtain ⟨attributes, hp, rfl⟩ := parseHead_eq_ok h
  refine ⟨rfl, rfl, fun hn => ?_⟩
  have hw : '\n' ∉ part.trim.firstWord := fun h =>
    hn (Text.trim_subset part (Text.firstWord_subset part.trim h))
  have hd : '\n' ∉ partTail part := fun h => hn ((partTail_isInfix part).subset h)
  obtain ⟨ha, hr⟩ := Attribute.parse_subset hp
  have ha' : ∀ a ∈ attributes, '\n' ∉ a.name ∧ '\n' ∉ a.value := fun a hm =>
    ⟨fun h => hd ((ha a hm).1 h), fun h => hd ((ha a hm).2 h)⟩
  exact ⟨fun h => hd (hr h), no_newline_ofText hw ha'⟩

namespace State

/-- States that differ only in how far the source is read. -/
structure Reads (s s' : State) : Prop where
  token : s'.token = s.token
  indentation : s'.indentation = s.indentation
  level : s'.level = s.level
  page : s'.page = s.page

theorem Reads.refl (s : State) : Reads s s :=
  ⟨rfl, rfl, rfl, rfl⟩

theorem Reads.trans {s s' s'' : State} (h : Reads s s') (h' : Reads s' s'') : Reads s s'' :=
  ⟨h'.token.trans h.token, h'.indentation.trans h.indentation, h'.level.trans h.level,
    h'.page.trans h.page⟩

/-- The line that is read next, without its line feed. -/
def firstLine (s : State) : Text :=
  s.remaining.takeWhile (· != '\n')

theorem no_newline_firstLine (s : State) : '\n' ∉ s.firstLine :=
  Text.newline_notMem_takeWhile s.remaining

theorem nextLine?_eq {s s' : State} {line : Text} (h : s.nextLine? = some (line, s')) :
    line = s.firstLine ∧ Reads s s' := by
  unfold nextLine? at h
  split at h
  · simp at h
  · obtain ⟨rfl, rfl⟩ := by simpa using h
    exact ⟨rfl, ⟨rfl, rfl, rfl, rfl⟩⟩

theorem foldLines_reads (depth : Int) (content : Text) (s : State) :
    Reads s (s.foldLines depth content).2 := by
  fun_induction foldLines depth content s with
  | case1 => exact .refl _
  | case2 => exact .refl _
  | case3 depth content s hd line next h ih => exact (nextLine?_eq h).2.trans ih

theorem foldLines_no_newline {depth : Int} {content content' : Text} {s : State}
    (hc : '\n' ∉ content) (h : (s.foldLines depth content).1 = some content') :
    '\n' ∉ content' := by
  fun_induction foldLines depth content s with
  | case1 => simp_all
  | case2 => simp at h
  | case3 depth content s hd line next hn ih =>
    apply ih _ h
    have hl : '\n' ∉ line.trim := fun hm => by
      have := Text.trim_subset line hm
      rw [(nextLine?_eq hn).1] at this
      exact s.no_newline_firstLine this
    simp [hc, hl]

theorem unwrap_subset (content : Text) : unwrap content ⊆ content := by
  intro c hc
  have h1 := Text.trim_subset _ hc
  have h2 := List.dropLast_subset _ h1
  exact Text.trim_subset _ (List.drop_subset _ _ h2)

theorem readBody_reads (s : State) (rest : Text) : Reads s (s.readBody rest).2 := by
  have h := s.foldLines_reads rest.bracketLevel rest
  unfold readBody
  split
  · dsimp only
    split
    · exact .refl s
    · split <;> next hf => simpa [hf] using h
  · split <;> exact .refl s

theorem readBody_no_newline {s : State} {rest text : Text} (hr : '\n' ∉ rest)
    (h : (s.readBody rest).1 = .ok (.inline text)) : '\n' ∉ text := by
  unfold readBody at h
  split at h
  · dsimp only at h
    split at h
    · simp at h
    · split at h
      · simp at h
      · next content after hf =>
        obtain rfl : unwrap content = text := by simpa using h
        have hc := foldLines_no_newline hr (congrArg Prod.fst hf)
        exact fun hm => hc (unwrap_subset content hm)
  · split at h <;> simp at h

theorem writeElement_no_newline {e : Element} {body : Body} (ht : '\n' ∉ e.selector.tag)
    (ho : '\n' ∉ opening e.selector e.attributes) (hb : ∀ text, body = .inline text → '\n' ∉ text) :
    '\n' ∉ (Piece.element { e with body }).render := by
  rw [render_element]
  cases body with
  | children => simp [ho]
  | selfClosing => simp [ho]
  | inline text => simp [ho, ht, hb text rfl]

/-- A chain adds its elements from the current level on, and changes neither unit nor token. -/
theorem writeChain_page (parts : List Text) (s : State) (hp : ∀ part ∈ parts, '\n' ∉ part) :
    ∃ elements, ChainOf parts elements ∧
      (s.writeChain parts).2.page = s.page.writeNested s.unit s.level elements ∧
      (s.writeChain parts).2.indentation = s.indentation ∧
      (s.writeChain parts).2.token = s.token := by
  fun_induction writeChain parts s with
  | case1 s => exact ⟨[], .nil _, rfl, rfl, rfl⟩
  | case2 part s e he => exact ⟨[], .nil _, rfl, rfl, rfl⟩
  | case3 part s element rest he e after hb =>
    have hr := s.readBody_reads rest
    simp only [hb] at hr
    exact ⟨[], .nil _, hr.page, hr.indentation, hr.token⟩
  | case4 part s element rest he body after hb =>
    have hr := s.readBody_reads rest
    simp only [hb] at hr
    obtain ⟨hs, -, hn⟩ := parseHead_eq he
    obtain ⟨hrest, htag, ho⟩ := hn (hp part (by simp))
    have hbody : ∀ text, body = .inline text → '\n' ∉ text := by
      rintro text rfl
      exact readBody_no_newline hrest (congrArg Prod.fst hb)
    refine ⟨[{ element with body }], .single hs (writeElement_no_newline htag ho hbody), ?_,
      hr.indentation, hr.token⟩
    simp [writeElement, Page.writeNested, hr.page, hr.level, unit, hr.indentation]
  | case5 part parts s hne e he => exact ⟨[], .nil _, rfl, rfl, rfl⟩
  | case6 part parts s hne element rest he ih =>
    obtain ⟨hs, hb, hn⟩ := parseHead_eq he
    obtain ⟨-, htag, ho⟩ := hn (hp part (by simp))
    obtain ⟨elements, hc, hpage, hi, ht⟩ := ih fun p hm => hp p (by simp [hm])
    have hnl : '\n' ∉ (Piece.element element).render :=
      writeElement_no_newline htag ho (by simp [hb])
    exact ⟨element :: elements, hc.cons hs hb hnl, hpage, hi, ht⟩

/-- What a line can add, given its text. -/
inductive Adds (line : Text) : Addition → Prop
  | verbatim {text : Text} : '\n' ∉ text → Adds line (.verbatim text)
  | nested {elements : List Element} :
      ChainOf (chainParts line.trim) elements → Adds line (.nested elements)

theorem mem_pieces_of_mem_chainParts {line part : Text} (h : part ∈ chainParts line) :
    part ∈ Text.pieces chainMark line := by
  unfold chainParts at h
  split at h
  · simp at h
  · next first others hp =>
    rw [hp]
    rcases List.mem_cons.mp h with rfl | h
    · simp
    · have := List.dropWhile_subset _ (List.mem_reverse.mp h)
      exact List.mem_cons_of_mem _ (List.mem_reverse.mp this)

theorem infix_of_mem_chainParts {line part : Text} (h : part ∈ chainParts line) :
    part <:+: line :=
  Text.infix_of_mem_pieces (mem_pieces_of_mem_chainParts h)

theorem processLine_page (s : State) :
    ∃ addition, Adds s.firstLine addition ∧
      s.processLine.2.page = addition.write s.unit s.level s.page ∧
      s.processLine.2.indentation = s.indentation ∧ s.processLine.2.token = s.token := by
  unfold processLine
  split
  · exact ⟨.nested [], .nested (.nil _), rfl, rfl, rfl⟩
  · next line s' hn =>
    obtain ⟨rfl, hr⟩ := nextLine?_eq hn
    have hnl : '\n' ∉ s.firstLine.trim := fun h =>
      s.no_newline_firstLine (Text.trim_subset _ h)
    have hu : s'.unit = s.unit := congrArg Indentation.unit hr.indentation
    split
    · exact ⟨.nested [], .nested (.nil _), hr.page, hr.indentation, hr.token⟩
    · next c text ht =>
      split_ifs
      · refine ⟨.verbatim text, .verbatim fun h => hnl (by simp [ht, h]), ?_, hr.indentation,
          hr.token⟩
        simp [writeVerbatim, Addition.write, hr.page, hr.level, hu]
      · rw [ht] at hnl
        obtain ⟨elements, hc, hpage, hi, htok⟩ := s'.writeChain_page (chainParts (c :: text))
          fun part hp h => hnl ((infix_of_mem_chainParts hp).subset h)
        refine ⟨.nested elements, .nested (ht ▸ hc), ?_, hi.trans hr.indentation,
          htok.trans hr.token⟩
        simp [Addition.write, hpage, hr.page, hr.level, hu]

/-- A line closes the tags that are due at its level, and then adds to the page from there. -/
theorem step_page (s : State) :
    ∃ addition, Adds s.firstLine addition ∧
      s.step.2.page = addition.write s.readLevel.unit s.readLevel.level
        (s.page.closeFrom s.readLevel.unit s.readLevel.level) ∧
      s.step.2.indentation = s.readLevel.indentation ∧ s.step.2.token = s.token :=
  s.readLevel.closeTags.processLine_page

end State
end IndentMarkup.Compile
