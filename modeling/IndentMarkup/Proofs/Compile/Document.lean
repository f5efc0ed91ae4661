import IndentMarkup.Proofs.Compile.Notation
import IndentMarkup.Proofs.Markup.Indentation

/-! A document in its canonical notation compiles to its HTML. Nodes are followed one by one; what
a node leaves open is compared as if the next line at its level had closed it. -/
namespace IndentMarkup.Html

theorem row_zero (compress : Bool) (u v t : Text) : row compress u 0 t = row compress v 0 t := by
  simp [row]

namespace Page

theorem closeFrom_closeFrom {level deeper : Nat} (h : level ≤ deeper) (p : Page) (unit : Text) :
    (p.closeFrom unit deeper).closeFrom unit level = p.closeFrom unit level := by
  obtain ⟨tags, lines⟩ := p
  unfold closeFrom closeWhile
  induction tags generalizing lines with
  | nil => simp
  | cons t tags ih =>
    by_cases ht : deeper ≤ t.level
    · have hl : level ≤ t.level := by omega
      have := ih (lines.push (t.close unit))
      simp_all
    · simp [ht]

theorem head_closeFrom (p : Page) (unit : Text) (level : Nat) :
    ∀ t ∈ (p.closeFrom unit level).openTags.head?, t.level < level := by
  intro t ht
  have h := List.head?_dropWhile_not (fun t : OpenTag => decide (level ≤ t.level)) p.openTags
  rw [closeFrom, openTags_closeWhile] at ht
  rw [ht] at h
  simpa using h

theorem render_closeFrom (compress : Bool) (p : Page) (unit : Text) (level : Nat) :
    (p.closeFrom unit level).render compress = p.render compress ++
      (p.openTags.takeWhile fun t => level ≤ t.level).flatMap fun t =>
        row compress unit t.level ("</".toList ++ t.tag ++ ">".toList) := by
  simp only [render, closeFrom, lines_closeWhile, List.flatMap_append, List.flatMap_map,
    Line.render_eq, OpenTag.close, render_closing]

theorem closeFrom_innermost {p : Page} {tag : Text} {level : Nat} {tags : List OpenTag}
    (h : p.openTags = ⟨level, tag⟩ :: tags) (ht : ∀ t ∈ tags.head?, t.level < level)
    (unit : Text) :
    (p.closeFrom unit level).openTags = tags ∧
      ∀ compress, (p.closeFrom unit level).render compress =
        p.render compress ++ row compress unit level ("</".toList ++ tag ++ ">".toList) := by
  have hd : tags.dropWhile (fun t => level ≤ t.level) = tags ∧
      tags.takeWhile (fun t => level ≤ t.level) = [] := by
    cases tags with
    | nil => simp
    | cons t tags =>
      have := ht t rfl
      simp [this]
  refine ⟨?_, fun compress => ?_⟩
  · rw [closeFrom, openTags_closeWhile, h, List.dropWhile_cons_of_pos (by simp), hd.1]
  · rw [render_closeFrom, h, List.takeWhile_cons_of_pos (by simp), hd.2]
    simp

/-- At level 0 there is nothing to indent. -/
theorem render_closeFrom_unit {p : Page} (h : ∀ t ∈ p.openTags, t.level = 0) (compress : Bool)
    (u v : Text) (level : Nat) :
    (p.closeFrom u level).render compress = (p.closeFrom v level).render compress := by
  rw [render_closeFrom, render_closeFrom]
  congr 1
  refine List.flatMap_congr fun t ht => ?_
  rw [h t (List.takeWhile_subset _ ht), row_zero]

end Page
end IndentMarkup.Html

namespace IndentMarkup.Compile
open Html Text Indentation

namespace State

/-- The unit is known, or only lines at level 0 were read so far. -/
def Fits (unit : Text) (level : Nat) (s : State) : Prop :=
  s.unit = unit ∨ s.unit = [] ∧ level ≤ 1 ∧ ∀ t ∈ s.page.openTags, t.level = 0

theorem Fits.shallower {unit : Text} {level : Nat} {s : State} (h : s.Fits unit (level + 1)) :
    s.Fits unit level := by
  rcases h with h | ⟨h, hl, ht⟩
  · exact .inl h
  · exact .inr ⟨h, by omega, ht⟩

variable {unit : Text} {level : Nat} {s : State}

theorem readLevel_sourceLine {c : Char} {content rest : Text} (hu : IsUnit unit)
    (hc : isInlineBlank c = false)
    (h : s.remaining = sourceLine unit level (c :: content) ++ rest) (hs : s.Fits unit level) :
    s.readLevel.level = level ∧
      (s.readLevel.unit = unit ∨ s.readLevel.unit = [] ∧ level = 0 ∧
        ∀ t ∈ s.page.openTags, t.level = 0) := by
  have hblanks : s.remaining.leadingBlanks = (List.replicate level unit).flatten := by
    rw [h, sourceLine, List.append_assoc, List.append_assoc]
    exact leadingBlanks_append (isInlineBlank_indent hu.blank level) (by simpa using hc)
  unfold readLevel State.unit Indentation.levelOf
  simp only [hblanks]
  cases level with
  | zero =>
    refine ⟨rfl, ?_⟩
    rcases hs with hs | ⟨hs, -, ht⟩
    · exact .inl hs
    · exact .inr ⟨hs, rfl, ht⟩
  | succ n =>
    have hne : (List.replicate (n + 1) unit).flatten ≠ [] := by
      simp [List.replicate_succ, hu.ne_nil]
    rw [if_neg (by simpa using hne)]
    rcases hs with hs | ⟨hs, hn, -⟩
    · have hi : s.indentation.unit = unit := hs
      rw [hi, if_neg (by simpa using hu.ne_nil)]
      exact ⟨copies_replicate hu.ne_nil (n + 1), .inl hi⟩
    · -- the first indented line is at level 1, so its blanks are the unit
      have hi : s.indentation.unit = [] := hs
      obtain rfl : n = 0 := by omega
      simp [hi]

/-- A canonical line closes what is due at its level, and adds its piece. -/
theorem run_sourceLine {content rest : Text} {piece : Piece} (hu : IsUnit unit)
    (h : s.remaining = sourceLine unit level content ++ rest) (hs : s.Fits unit level)
    (hp : StandsFor s.token content piece) :
    ∃ next : State, s.run = next.run ∧ next.remaining = rest ∧ next.token = s.token ∧
      (next.unit = unit ∨ next.unit = [] ∧ level = 0 ∧ ∀ t ∈ s.page.openTags, t.level = 0) ∧
      next.page.openTags = piece.tags level ++ (s.page.closeFrom unit level).openTags ∧
      ∀ compress, next.page.render compress = (s.page.closeFrom unit level).render compress ++
        row compress unit level piece.render := by
  obtain ⟨c, t, hc, hcb, -⟩ := hp.exists_cons
  subst hc
  obtain ⟨hl, hlu⟩ := readLevel_sourceLine hu (isInlineBlank_of_not_isBlank hcb) h hs
  have he : s.atEnd = false := by simp [atEnd, h, sourceLine]
  have hrem : s.readLevel.closeTags.remaining =
      (List.replicate level unit).flatten ++ (c :: t) ++ '\n' :: rest := by
    change s.remaining = _
    rw [h, sourceLine]
    simp
  obtain ⟨next, hstep, hr, htok, hi, ho, hlines⟩ := processLine_standsFor hrem
    (isInlineBlank_indent hu.blank level) hp
  have hnu : next.unit = s.readLevel.unit := congrArg Indentation.unit hi
  have hclose : s.readLevel.closeTags.page = s.page.closeFrom s.readLevel.unit level := by
    rw [← hl]
    rfl
  rw [hclose] at ho hlines
  rw [show s.readLevel.closeTags.level = level from hl] at ho hlines
  refine ⟨next, run_of_step he hstep, hr, htok, hnu ▸ hlu, ho, fun compress => ?_⟩
  rw [Page.render, hlines, List.flatMap_append, List.flatMap_singleton, Line.render_eq]
  change (s.page.closeFrom s.readLevel.unit level).render compress ++
    row compress s.readLevel.unit level piece.render = _
  rcases hlu with hlu | ⟨-, rfl, ht⟩
  · rw [hlu]
  · rw [Page.render_closeFrom_unit ht compress _ unit, row_zero compress _ unit]

/-- A run from `s` comes to `next` and writes `html` on the way, where tags that a line at this
level closes are left out of the comparison. -/
structure Writes (unit : Text) (level : Nat) (html : Bool → Text) (s next : State) : Prop where
  run : s.run = next.run
  token : next.token = s.token
  fits : next.Fits unit level
  openTags : (next.page.closeFrom unit level).openTags = (s.page.closeFrom unit level).openTags
  render : ∀ compress, (next.page.closeFrom unit level).render compress =
    (s.page.closeFrom unit level).render compress ++ html compress

theorem Writes.refl (h : s.Fits unit level) : Writes unit level (fun _ => []) s s :=
  ⟨rfl, rfl, h, rfl, by simp⟩

theorem Writes.trans {s' s'' : State} {html html' : Bool → Text} (h : Writes unit level html s s')
    (h' : Writes unit level html' s' s'') :
    Writes unit level (fun compress => html compress ++ html' compress) s s'' := by
  refine ⟨h.run.trans h'.run, h'.token.trans h.token, h'.fits, h'.openTags.trans h.openTags, ?_⟩
  intro compress
  rw [h'.render, h.render, List.append_assoc]

theorem exists_writes_leaf {content rest : Text} {piece : Piece} (hu : IsUnit unit)
    (h : s.remaining = sourceLine unit level content ++ rest) (hs : s.Fits unit level)
    (hp : StandsFor s.token content piece) (ht : piece.tags level = []) :
    ∃ next : State, next.remaining = rest ∧
      Writes unit level (fun compress => row compress unit level piece.render) s next := by
  obtain ⟨next, hrun, hr, htok, hnu, ho, hrender⟩ := run_sourceLine hu h hs hp
  rw [ht, List.nil_append] at ho
  have hc : next.page.closeFrom unit level = next.page :=
    Page.closeFrom_of_lt (ho ▸ s.page.head_closeFrom unit level) unit
  refine ⟨next, hr, hrun, htok, ?_, by rw [hc, ho], by rwa [hc]⟩
  rcases hnu with hnu | ⟨hnu, rfl, hz⟩
  · exact .inl hnu
  · refine .inr ⟨hnu, by omega, fun t ht => hz t ?_⟩
    rw [ho] at ht
    exact List.dropWhile_subset _ ht

/-- An element stays open while its children are read, and the next line at its level closes it. -/
theorem exists_writes_element {e : Element} {rest after : Text} {html : Bool → Text}
    (hu : IsUnit unit) (h : s.remaining = sourceLine unit level e.print ++ rest)
    (hs : s.Fits unit level) (he : CanonicalElement s.token e) (hbody : e.body = .children)
    (hchildren : ∀ inside : State, inside.remaining = rest → inside.token = s.token →
      inside.Fits unit (level + 1) → ∃ last : State, last.remaining = after ∧
        Writes unit (level + 1) html inside last) :
    ∃ last : State, last.remaining = after ∧
      Writes unit level (fun compress =>
        row compress unit level (opening e.selector e.attributes ++ ">".toList) ++ html compress ++
          row compress unit level ("</".toList ++ e.selector.tag ++ ">".toList)) s last := by
  obtain ⟨inside, hrun, hr, htok, hnu, ho, hrender⟩ := run_sourceLine hu h hs (.element he)
  have htags : (Piece.element e).tags level = [⟨level, e.tag⟩] := by
    simp [Piece.tags, Page.tagsOf, hbody]
  rw [htags, List.singleton_append] at ho
  have hfits : inside.Fits unit (level + 1) := by
    rcases hnu with hnu | ⟨hnu, rfl, hz⟩
    · exact .inl hnu
    · refine .inr ⟨hnu, by omega, fun t ht => ?_⟩
      rw [ho] at ht
      rcases List.mem_cons.mp ht with rfl | ht
      · rfl
      · exact hz t (List.dropWhile_subset _ ht)
  obtain ⟨last, hlast, hw⟩ := hchildren inside hr htok hfits
  have hopen : inside.page.closeFrom unit (level + 1) = inside.page :=
    Page.closeFrom_of_lt (by simp [ho]) unit
  have hwo := hw.openTags
  rw [hopen, ho] at hwo
  -- once the children are closed, the element is innermost again
  obtain ⟨hco, hcr⟩ := Page.closeFrom_innermost hwo (s.page.head_closeFrom unit level) unit
  rw [Page.closeFrom_closeFrom (by omega)] at hco hcr
  refine ⟨last, hlast, hrun.trans hw.run, hw.token.trans htok, hw.fits.shallower, hco, ?_⟩
  intro compress
  rw [hcr, hw.render, hopen, hrender, render_element, hbody]
  simp [Element.tag]

mutual

theorem exists_writes {n : Node} {level : Nat} {s : State} {rest : Text} (hu : IsUnit unit)
    (hn : n.Canonical s.token)
    (h : s.remaining = n.print s.token unit level ++ rest) (hs : s.Fits unit level) :
    ∃ next : State, next.remaining = rest ∧
      Writes unit level (fun compress => n.html compress unit level) s next := by
  cases n with
  | element selector attributes children =>
    cases hn with
    | element he hc =>
      rw [Node.print, List.append_assoc] at h
      have hchildren : ∀ inside : State,
          inside.remaining = Node.printAll s.token unit (level + 1) children ++ rest →
          inside.token = s.token → inside.Fits unit (level + 1) →
          ∃ last : State, last.remaining = rest ∧ Writes unit (level + 1)
            (fun compress => Node.htmlAll compress unit (level + 1) children) inside last := by
        intro inside hr ht hf
        rw [← ht] at hr hc
        exact exists_writesAll hu hc hr hf
      have hw := exists_writes_element hu h hs he rfl hchildren
      simpa only [Node.html] using hw
  | inline selector attributes text =>
    cases hn with
    | inline he =>
      have hw := exists_writes_leaf hu h hs (.element he) (by simp [Piece.tags, Page.tagsOf])
      simpa [render_element, Node.html] using hw
  | selfClosing selector attributes =>
    cases hn with
    | selfClosing he =>
      have hw := exists_writes_leaf hu h hs (.element he) (by simp [Piece.tags, Page.tagsOf])
      simpa [render_element, Node.html] using hw
  | verbatim text =>
    cases hn with
    | verbatim ht => exact exists_writes_leaf hu h hs (.verbatim ht) rfl

theorem exists_writesAll {nodes : List Node} {level : Nat} {s : State} {rest : Text}
    (hu : IsUnit unit) (hn : ∀ n ∈ nodes, n.Canonical s.token)
    (h : s.remaining = Node.printAll s.token unit level nodes ++ rest) (hs : s.Fits unit level) :
    ∃ next : State, next.remaining = rest ∧
      Writes unit level (fun compress => Node.htmlAll compress unit level nodes) s next := by
  cases nodes with
  | nil => exact ⟨s, h, .refl hs⟩
  | cons n nodes =>
    rw [Node.printAll, List.append_assoc] at h
    obtain ⟨s', hr, hw⟩ := exists_writes hu (hn n (by simp)) h hs
    rw [← hw.token] at hr hn
    obtain ⟨last, hlast, hw'⟩ := exists_writesAll hu (fun m hm => hn m (by simp [hm])) hr hw.fits
    exact ⟨last, hlast, hw.trans hw'⟩

end

end State

/-- A document in its canonical notation compiles to its HTML. -/
theorem compile_print {token : Char} {unit : Text} {forest : List Node} (hu : IsUnit unit)
    (hf : ∀ n ∈ forest, n.Canonical token)
    (compress : Bool) :
    compile ⟨compress, token⟩ (Node.printAll token unit 0 forest) =
      .ok (Node.htmlAll compress unit 0 forest) := by
  let s := initial ⟨compress, token⟩ (Node.printAll token unit 0 forest)
  have hs : s.Fits unit 0 := .inr ⟨rfl, by omega, fun t ht => absurd ht List.not_mem_nil⟩
  have hr : s.remaining = Node.printAll s.token unit 0 forest ++ [] := (List.append_nil _).symm
  obtain ⟨last, hlast, hw⟩ := State.exists_writesAll hu hf hr hs
  have he : last.atEnd = true := by simp [State.atEnd, hlast]
  have hclose : last.closeAll.page = last.page.closeFrom last.unit 0 := by
    simp [State.closeAll, Page.closeAll, Page.closeFrom]
  have hrender : last.closeAll.page.render compress =
      (last.page.closeFrom unit 0).render compress := by
    rw [hclose]
    rcases hw.fits with hl | ⟨-, -, ht⟩
    · rw [hl]
    · exact Page.render_closeFrom_unit ht compress _ _ 0
  have hrun : s.run = .ok last.closeAll := by rw [hw.run, State.run_of_atEnd he]
  rw [compile_of_run hrun, hrender, hw.render]
  rfl

/-- Here are an element with children, two kinds of value, inline and verbatim text. -/
theorem compile_print_page :
    let page : List Node :=
      [.element ⟨"main".toList, some "top".toList, ["a".toList, "b".toList]⟩
        [⟨"title".toList, "\x7b\x7b x \x7d\x7d".toList⟩, ⟨"lang".toList, "de at".toList⟩]
        [.inline ⟨"p".toList, none, []⟩ [] "x <i> = y".toList, .verbatim "<!-- raw".toList],
      .selfClosing ⟨"hr".toList, none, []⟩ [⟨"a".toList, "<%= y %>".toList⟩]]
    (∀ n ∈ page, n.Canonical '\x60') ∧
      Node.printAll '\x60' "\t".toList 0 page =
        ("main#top.a.b title=\x7b\x7b x \x7d\x7d lang=de at\n" ++
          "\tp <x <i> = y>\n\t\x60<!-- raw\nhr a=<%= y %> /\n").toList ∧
      compile ⟨true, '\x60'⟩ (Node.printAll '\x60' "\t".toList 0 page) =
        .ok (Node.htmlAll true "\t".toList 0 page) := by
  intro page
  have hbraces : Attribute.IsTemplate "\x7b\x7b x \x7d\x7d".toList :=
    ⟨.braces, " x ".toList, rfl, by decide⟩
  have hpercent : Attribute.IsTemplate "<%= y %>".toList :=
    ⟨.percent, "= y ".toList, rfl, by decide⟩
  have hplain : Attribute.IsPlain "de at".toList := ⟨by decide, by decide, by decide, by decide⟩
  have hmain : CanonicalElement '\x60'
      ⟨⟨"main".toList, some "top".toList, ["a".toList, "b".toList]⟩,
        [⟨"title".toList, "\x7b\x7b x \x7d\x7d".toList⟩, ⟨"lang".toList, "de at".toList⟩],
        .children⟩ := by
    refine ⟨⟨⟨by decide, by decide, by decide, by decide⟩, ?_, trivial⟩, by decide, by decide⟩
    simp only [List.forall_mem_cons]
    exact ⟨⟨⟨by decide, .inr hbraces⟩, by decide⟩, ⟨⟨by decide, .inl hplain⟩, by decide⟩, by simp⟩
  have hp : CanonicalElement '\x60' ⟨⟨"p".toList, none, []⟩, [], .inline "x <i> = y".toList⟩ :=
    ⟨⟨⟨by decide, by decide, by decide, by decide⟩, by simp, by decide, by decide, by decide,
      by simp⟩, by decide, by decide⟩
  have hhr : CanonicalElement '\x60'
      ⟨⟨"hr".toList, none, []⟩, [⟨"a".toList, "<%= y %>".toList⟩], .selfClosing⟩ := by
    refine ⟨⟨⟨by decide, by decide, by decide, by decide⟩, ?_, ?_⟩, by decide, by decide⟩
    · simp only [List.forall_mem_singleton]
      exact ⟨⟨by decide, .inr hpercent⟩, by decide⟩
    · simpa [Body.Printable] using hpercent
  have hunit : IsUnit "\t".toList := ⟨by decide, by simp [isInlineBlank]⟩
  have hraw : CanonicalText '\x60' "<!-- raw".toList := ⟨by decide, by decide, by decide⟩
  have hpage : ∀ n ∈ page, n.Canonical '\x60' := by
    simp only [page, List.forall_mem_cons]
    refine ⟨.element hmain ?_, .selfClosing hhr, by simp⟩
    simp only [List.forall_mem_cons]
    exact ⟨.inline hp, .verbatim hraw, by simp⟩
  exact ⟨hpage, by decide +kernel, compile_print hunit hpage true⟩

-- a plain value takes a slash behind it along, so the element does not close itself
example : compile ⟨true, '\x60'⟩ "img src=a /".toList = .ok "<img src=\"a /\"></img>".toList := by
  with_unfolding_all rfl

end IndentMarkup.Compile
