import IndentMarkup.Proofs.Compile.Balance
import IndentMarkup.Proofs.Compile.Draft
import IndentMarkup.Proofs.Compile.Notation
import IndentMarkup.Proofs.Markup.Indentation

/-! How deep lines are indented counts, not what they are indented with. Whatever number of copies
becomes the unit, lines that are indented by copies of another text have the same levels. -/
namespace IndentMarkup

namespace Html.Addition

def pieces : Addition → List Piece
  | verbatim text => [.verbatim text]
  | nested elements => elements.map .element

theorem map_piece_lines (a : Addition) (unit : Text) (level : Nat) :
    (a.lines unit level).map Line.piece = a.pieces := by
  cases a with
  | verbatim text => rfl
  | nested elements =>
    apply List.ext_getElem?
    intro i
    simp [lines, pieces, Function.comp_def]

end Html.Addition

namespace Compile
open Html Text

/-- Blanks that are as many copies of `u` as others are of `v`. -/
def SameCount (u v blanks blanks' : Text) : Prop :=
  ∃ k, blanks = (List.replicate k u).flatten ∧ blanks' = (List.replicate k v).flatten

/-- The level that an indentation gives to copies of a text, and the unit it is left with. -/
theorem levelOf_replicate {u : Text} (hu : IsUnit u) {i : Indentation} {m : Nat}
    (hi : i.unit = (List.replicate m u).flatten) (k : Nat) :
    i.levelOf (List.replicate k u).flatten =
      if k = 0 then (0, i)
      else if m = 0 then (1, ⟨(List.replicate k u).flatten⟩)
      else (k / m, i) := by
  have hblanks : leadingBlanks (List.replicate k u).flatten = (List.replicate k u).flatten := by
    simpa using
      leadingBlanks_append (t := []) (Indentation.isInlineBlank_indent hu.blank k) (by simp)
  have hempty : ∀ n, (List.replicate n u).flatten.isEmpty = true ↔ n = 0 := by
    intro n
    simp [hu.ne_nil]
  unfold Indentation.levelOf
  simp only [hblanks, hi, hempty]
  split_ifs with hk hm
  · rfl
  · rfl
  · rw [Indentation.copies_flatten_replicate hu.ne_nil (by omega)]

namespace Draft

/-- Drafts with the same tags open and the same pieces written, whose units are as many copies of
`u` and of `v`. -/
structure Alike (u v : Text) (d d' : Draft) : Prop where
  unit : SameCount u v d.indentation.unit d'.indentation.unit
  openTags : d'.page.openTags = d.page.openTags
  pieces : d'.page.pieces = d.page.pieces

theorem add_pieces (d : Draft) (e : Entry) : (d.add e).page.pieces = d.page.pieces ++
    (d.page.openTags.takeWhile (d.levelOf e ≤ ·.level)).map (fun t => .closing t.tag) ++
      e.addition.pieces := by
  rw [Page.pieces, add_lines, List.map_append, List.map_append, List.map_map,
    Addition.map_piece_lines]
  rfl

theorem finish_pieces (d : Draft) : d.finish.page.pieces =
    d.page.pieces ++ d.page.openTags.map fun t => .closing t.tag := by
  rw [Page.pieces, finish_lines, List.map_append, List.map_map]
  rfl

variable {u v : Text} {d d' : Draft}

theorem Alike.add (hu : IsUnit u) (hv : IsUnit v) (h : Alike u v d d') {e e' : Entry}
    (he : e.Related (SameCount u v) e') : Alike u v (d.add e) (d'.add e') := by
  obtain ⟨m, hm, hm'⟩ := h.unit
  obtain ⟨k, hk, hk'⟩ := he.blanks
  have hl := levelOf_replicate hu hm k
  have hl' := levelOf_replicate hv hm' k
  rw [← hk] at hl
  rw [← hk'] at hl'
  have hlevel : d'.levelOf e' = d.levelOf e := by
    rw [levelOf, levelOf, hl, hl']
    split_ifs <;> rfl
  refine ⟨?_, ?_, ?_⟩
  · change SameCount u v (d.indentation.levelOf e.blanks).2.unit
      (d'.indentation.levelOf e'.blanks).2.unit
    rw [hl, hl']
    split_ifs
    · exact h.unit
    · exact he.blanks
    · exact h.unit
  · rw [add_openTags, add_openTags, hlevel, h.openTags, he.addition]
  · rw [add_pieces, add_pieces, hlevel, h.openTags, h.pieces, he.addition]

theorem Alike.foldl (hu : IsUnit u) (hv : IsUnit v) (h : Alike u v d d') {es es' : List Entry}
    (hes : List.Forall₂ (Entry.Related (SameCount u v)) es es') :
    Alike u v (es.foldl Draft.add d) (es'.foldl Draft.add d') := by
  induction hes generalizing d d' with
  | nil => exact h
  | cons he _ ih => exact ih (h.add hu hv he)

theorem Alike.finish (h : Alike u v d d') : d'.finish.page.pieces = d.finish.page.pieces := by
  rw [finish_pieces, finish_pieces, h.pieces, h.openTags]

end Draft

/-- The source with a text on each line, indented by copies of a unit. -/
def indentedSource (unit : Text) (rows : List (Nat × Text)) : Text :=
  "\n".toList.intercalate (rows.map fun (k, t) => (List.replicate k unit).flatten ++ t)

/-- Lines with the same text behind as many copies of `u` and of `v`. -/
def Reindented (u v line line' : Text) : Prop :=
  ∃ k t, line = (List.replicate k u).flatten ++ t ∧ line' = (List.replicate k v).flatten ++ t ∧
    '\n' ∉ t ∧ ∀ c ∈ t.head?, isInlineBlank c = false

variable {u v : Text}

theorem no_newline_indent (hu : IsUnit u) {t : Text} (ht : '\n' ∉ t) (k : Nat) :
    '\n' ∉ (List.replicate k u).flatten ++ t := by
  intro hm
  rcases List.mem_append.mp hm with hm | hm
  · exact absurd (Indentation.isInlineBlank_indent hu.blank k _ hm) (by decide)
  · exact ht hm

theorem indent_eq_nil_iff (hu : IsUnit u) {t : Text} {k : Nat} :
    (List.replicate k u).flatten ++ t = [] ↔ k = 0 ∧ t = [] := by
  simp [hu.ne_nil]

theorem trim_indent (hu : IsUnit u) (k : Nat) (t : Text) :
    trim ((List.replicate k u).flatten ++ t) = trim t :=
  trim_blank_append (fun c hc =>
    isBlank_of_isInlineBlank (Indentation.isInlineBlank_indent hu.blank k c hc)) t

theorem Reindented.sameWords (hu : IsUnit u) (hv : IsUnit v) {line line' : Text}
    (h : Reindented u v line line') : SameWords (SameCount u v) line line' := by
  obtain ⟨k, t, rfl, rfl, -, hc⟩ := h
  refine ⟨⟨k, ?_, ?_⟩, ?_⟩
  · exact leadingBlanks_append (Indentation.isInlineBlank_indent hu.blank k) hc
  · exact leadingBlanks_append (Indentation.isInlineBlank_indent hv.blank k) hc
  · rw [trim_indent hu, trim_indent hv]

theorem lines_indentedSource (hu : IsUnit u) (hv : IsUnit v) {rows : List (Nat × Text)}
    (h : ∀ row ∈ rows, '\n' ∉ row.2 ∧ ∀ c ∈ row.2.head?, c ≠ ' ' ∧ c ≠ '\t') :
    List.Forall₂ (Reindented u v) (indentedSource u rows).lines (indentedSource v rows).lines := by
  apply forall₂_lines_intercalate
  · rw [List.forall₂_map_left_iff, List.forall₂_map_right_iff, List.forall₂_same]
    rintro ⟨k, t⟩ hm
    obtain ⟨hn, hc⟩ := h _ hm
    exact ⟨k, t, rfl, rfl, hn, fun c hh => by simpa [isInlineBlank] using hc c hh⟩
  · rintro _ _ ⟨k, t, rfl, rfl, -⟩
    rw [indent_eq_nil_iff hu, indent_eq_nil_iff hv]
  · rintro _ _ ⟨k, t, rfl, rfl, hn, -⟩
    exact ⟨no_newline_indent hu hn k, no_newline_indent hv hn k⟩

/-- With compressed output it makes no difference what a source is indented with. -/
theorem compile_indentedSource (hu : IsUnit u) (hv : IsUnit v) (token : Char)
    {rows : List (Nat × Text)}
    (h : ∀ row ∈ rows, '\n' ∉ row.2 ∧ ∀ c ∈ row.2.head?, c ≠ ' ' ∧ c ≠ '\t') :
    compile ⟨true, token⟩ (indentedSource u rows) =
      compile ⟨true, token⟩ (indentedSource v rows) := by
  have hl := (lines_indentedSource hu hv h).imp fun _ _ hr => hr.sameWords hu hv
  rw [compile_eq, compile_eq]
  rcases entries_related token 0 hl with
    ⟨e, he, he'⟩ | ⟨es, es', he, he', hes⟩
  · rw [he, he']
  · have hstart : Draft.Alike u v {} {} := ⟨⟨0, rfl, rfl⟩, rfl, rfl⟩
    have hp := (hstart.foldl hu hv hes).finish
    rw [he, he']
    change Except.ok (Page.render true _) = .ok (Page.render true _)
    rw [render_compressed, render_compressed, hp]

/-- The first indented line is two copies deep, and these are the unit: three copies are level 1 and
one left over, one copy is level 0. The line that is folded into content does not count. -/
theorem compile_indentedSource_ragged :
    let rows : List (Nat × Text) := [(0, "a".toList), (0, []), (2, "b".toList), (3, "c <x".toList),
      (1, "y>".toList), (4, "d".toList), (1, "e".toList)]
    compile ⟨true, '\x60'⟩ (indentedSource " ".toList rows) =
        .ok "<a></a><b></b><c>x y</c><d></d><e></e>".toList ∧
      compile ⟨true, '\x60'⟩ (indentedSource "\t ".toList rows) =
        .ok "<a></a><b></b><c>x y</c><d></d><e></e>".toList := by
  intro rows
  have hu : IsUnit " ".toList := ⟨by decide, by simp [isInlineBlank]⟩
  have hv : IsUnit "\t ".toList := ⟨by decide, by simp [isInlineBlank]⟩
  have h : compile ⟨true, '\x60'⟩ (indentedSource " ".toList rows) =
      .ok "<a></a><b></b><c>x y</c><d></d><e></e>".toList := by decide +kernel
  exact ⟨h, (compile_indentedSource hu hv '\x60' (by simp [rows])).symm.trans h⟩

end Compile
end IndentMarkup
