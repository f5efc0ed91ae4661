import Mathlib.Algebra.Group.Nat.Defs
import IndentMarkup.Proofs.Text.Bytes
import IndentMarkup.Proofs.Text.Lines
import IndentMarkup.Source.LineIndex

/-! The line index of a text agrees with the text's lines, as long as offsets fit their type. -/
namespace IndentMarkup

/-- A span that covers `body`: its bounds are in order, inside the text and between characters. -/
structure Span.Covers (s : Span) (t body : Text) : Prop where
  start_le_stop : s.start ≤ s.stop
  stop_le : s.stop.toNat ≤ t.byteSize
  start_boundary : t.IsBoundary s.start.toNat
  stop_boundary : t.IsBoundary s.stop.toNat
  text : s.text? t = some body

theorem Span.covers_of_append {s : Span} {before body : Text}
    (hstart : s.start.toNat = before.byteSize)
    (hstop : s.stop.toNat = before.byteSize + body.byteSize) (after : Text) :
    s.Covers (before ++ (body ++ after)) body where
  start_le_stop := by
    rw [UInt32.le_iff_toNat_le, hstart, hstop]
    exact Nat.le_add_right _ _
  stop_le := by
    rw [hstop, Text.byteSize_append, Text.byteSize_append]
    omega
  start_boundary := ⟨before, body ++ after, rfl, hstart.symm⟩
  stop_boundary := ⟨before ++ body, after, by simp, by rw [hstop, Text.byteSize_append]⟩
  text := by
    rw [Span.text?, hstart, hstop]
    exact Text.slice?_append before body after

namespace LineIndex

theorem startsAfter_of_no_newline {t : Text} (h : '\n' ∉ t) (offset : Nat) :
    startsAfter offset t = [] := by
  induction t generalizing offset with
  | nil => rfl
  | cons c t ih =>
    obtain ⟨hc, ht⟩ : '\n' ≠ c ∧ '\n' ∉ t := by simpa using h
    rw [startsAfter, if_neg (Ne.symm hc), ih ht]

theorem startsAfter_append_newline {line : Text} (h : '\n' ∉ line) (offset : Nat) (rest : Text) :
    startsAfter offset (line ++ '\n' :: rest) =
      (offset + line.byteSize + 1).toUInt32 :: startsAfter (offset + line.byteSize + 1) rest := by
  induction line generalizing offset with
  | nil => rfl
  | cons c line ih =>
    obtain ⟨hc, hl⟩ : '\n' ≠ c ∧ '\n' ∉ line := by simpa using h
    rw [List.cons_append, startsAfter, if_neg (Ne.symm hc), ih hl, Text.byteSize_cons,
      Nat.add_assoc offset]

theorem length_startsAfter (offset : Nat) (t : Text) :
    (startsAfter offset t).length = t.count '\n' := by
  induction t using Text.lines_induction generalizing offset with
  | last line h => rw [startsAfter_of_no_newline h, List.count_eq_zero.mpr h, List.length_nil]
  | line line rest h ih =>
    rw [startsAfter_append_newline h, List.length_cons, ih, List.count_append,
      List.count_eq_zero.mpr h, List.count_cons_self, Nat.zero_add]

/-- A line starts at the offset that its index has. The text ends with the line, or a line feed ends
it and the next offset is right behind that. -/
theorem exists_starts {t line : Text} {i : Nat} (h : (Text.pieces ['\n'] t)[i]? = some line)
    (offset : Nat) :
    ∃ before after : Text, t = before ++ (line ++ after) ∧
      (offset.toUInt32 :: startsAfter offset t)[i]? = some (offset + before.byteSize).toUInt32 ∧
      (after = [] ∧ (startsAfter offset t)[i]? = none ∨
        ∃ rest, after = '\n' :: rest ∧ (startsAfter offset t)[i]? =
          some (offset + before.byteSize + line.byteSize + 1).toUInt32) := by
  induction t using Text.lines_induction generalizing i offset with
  | last t ht =>
    rw [Text.pieces_singleton_of_notMem ht] at h
    obtain ⟨rfl, rfl⟩ : i = 0 ∧ t = line := by simpa [List.getElem?_singleton] using h
    exact ⟨[], [], by simp, by simp, .inl ⟨rfl, by simp [startsAfter_of_no_newline ht]⟩⟩
  | line first rest hf ih =>
    rw [Text.pieces_singleton_append hf] at h
    rw [startsAfter_append_newline hf]
    cases i with
    | zero =>
      obtain rfl : first = line := by simpa using h
      exact ⟨[], '\n' :: rest, by simp, by simp, .inr ⟨rest, rfl, by simp⟩⟩
    | succ i =>
      obtain ⟨before, after, rfl, hstart, hnext⟩ :=
        ih (by simpa using h) (offset + first.byteSize + 1)
      have hsize : offset + (first ++ '\n' :: before).byteSize =
          offset + first.byteSize + 1 + before.byteSize := by
        rw [Text.byteSize_append, Text.byteSize_cons, show '\n'.utf8Size = 1 from rfl]
        omega
      refine ⟨first ++ '\n' :: before, after, by simp, ?_, ?_⟩
      · rw [List.getElem?_cons_succ, hstart, hsize]
      · rwa [List.getElem?_cons_succ, hsize]

/-- Where a line, counted from 0, ends. -/
def lineStop (index : LineIndex) (i : Nat) : UInt32 :=
  match index.starts[i + 1]? with
  | some next => next - 1
  | none => index.size

theorem lineSpan?_eq {index : LineIndex} {i : Nat} {start : UInt32}
    (h : index.starts[i]? = some start) (t : Text) :
    index.lineSpan? (i + 1) t =
      if start < index.lineStop i ∧ t.charAt? ((index.lineStop i).toNat - 1) = some '\r' then
        some ⟨start, index.lineStop i - 1⟩
      else some ⟨start, index.lineStop i⟩ := by
  unfold lineSpan?
  simp only [Nat.add_one_ne_zero, if_false, Nat.add_one_sub_one, h, Bool.and_eq_true,
    decide_eq_true_eq, beq_iff_eq, Option.pure_def, Option.bind_eq_bind, Option.bind_some]
  rfl

/-- A line has a span just if the index has its start, and the span starts there. -/
theorem map_start_lineSpan? (index : LineIndex) (i : Nat) (t : Text) :
    (index.lineSpan? (i + 1) t).map Span.start = index.starts[i]? := by
  cases h : index.starts[i]? with
  | none => simp [lineSpan?, h]
  | some start =>
    rw [lineSpan?_eq h]
    split <;> rfl

theorem isSome_lineSpan?_iff (index : LineIndex) (n : Nat) (t : Text) :
    (index.lineSpan? n t).isSome = true ↔ 1 ≤ n ∧ n ≤ index.starts.length := by
  cases n with
  | zero => simp [lineSpan?]
  | succ i =>
    rw [← Option.isSome_map, map_start_lineSpan?, isSome_getElem?]
    omega

theorem lineStop_of_none {index : LineIndex} {i : Nat} (h : index.starts[i + 1]? = none) :
    index.lineStop i = index.size := by
  rw [lineStop, h]

theorem lineStop_of_some {index : LineIndex} {i n : Nat}
    (h : index.starts[i + 1]? = some (n + 1).toUInt32) : index.lineStop i = n.toUInt32 := by
  rw [lineStop, h]
  change UInt32.ofNat (n + 1) - 1 = UInt32.ofNat n
  rw [UInt32.ofNat_add n 1]
  exact UInt32.add_sub_cancel _ 1

/-- Looking right before the end of a line finds a carriage return just if the line ends with it. -/
theorem return_before_stop_iff (before line after : Text) :
    (before.byteSize < before.byteSize + line.byteSize ∧
      Text.charAt? (before.byteSize + line.byteSize - 1) (before ++ (line ++ after)) = some '\r') ↔
        line.getLast? = some '\r' := by
  by_cases hl : line = []
  · simp [hl]
  · have hpos := Text.byteSize_pos_iff.mpr hl
    have hne : before ++ line ≠ [] := by simp [hl]
    rw [← Text.byteSize_append, ← List.append_assoc, Text.charAt?_pred_eq_some_iff rfl hne after,
      List.getLast?_append_of_ne_nil before hl]
    exact and_iff_right (by rw [Text.byteSize_append]; omega)

/-- What an index says of a line, counted from 0, that stands between `before` and `after`: where it
starts and ends, and that the next line, if there is one, starts behind a line feed. -/
structure Indexes (index : LineIndex) (i : Nat) (before line after : Text) : Prop where
  start : index.starts[i]? = some before.byteSize.toUInt32
  stop : index.lineStop i = (before.byteSize + line.byteSize).toUInt32
  next : ∀ start ∈ index.starts[i + 1]?, ∃ rest, after = '\n' :: rest ∧
    start = (before.byteSize + line.byteSize + 1).toUInt32

theorem exists_indexes {t line : Text} {i : Nat} (h : (Text.pieces ['\n'] t)[i]? = some line) :
    ∃ before after : Text, t = before ++ (line ++ after) ∧
      (ofText t).Indexes i before line after := by
  obtain ⟨before, after, ht, hstart, hnext⟩ := exists_starts h 0
  rw [Nat.zero_add] at hstart hnext
  refine ⟨before, after, ht, hstart, ?_, ?_⟩
  · rcases hnext with ⟨rfl, hnone⟩ | ⟨rest, -, hsome⟩
    · rw [lineStop_of_none hnone, ← Text.byteSize_append]
      exact congrArg (Text.byteSize · |>.toUInt32) (by simpa using ht)
    · exact lineStop_of_some hsome
  · intro start (hm : (startsAfter 0 t)[i]? = some start)
    rcases hnext with ⟨-, hnone⟩ | ⟨rest, hrest, hsome⟩
    · simp [hnone] at hm
    · exact ⟨rest, hrest, Option.some.inj (hm.symm.trans hsome)⟩

namespace Indexes

variable {i : Nat} {before line after : Text}
  (h : (ofText (before ++ (line ++ after))).Indexes i before line after)
  (ht : (before ++ (line ++ after)).byteSize < 2 ^ 32)
include h ht

/-- The span of a line starts where the line does, and ends before the line break. -/
theorem exists_span : ∃ span : Span,
    (ofText (before ++ (line ++ after))).lineSpan? (i + 1) (before ++ (line ++ after)) =
        some span ∧
      span.start.toNat = before.byteSize ∧
      span.stop.toNat = before.byteSize + line.dropReturn.byteSize := by
  rw [Text.byteSize_append, Text.byteSize_append] at ht
  -- the text is small enough that neither bound is truncated
  have hs : before.byteSize.toUInt32.toNat = before.byteSize :=
    UInt32.toNat_ofNat_of_lt' (by simp [UInt32.size]; omega)
  have he : (before.byteSize + line.byteSize).toUInt32.toNat = before.byteSize + line.byteSize :=
    UInt32.toNat_ofNat_of_lt' (by simp [UInt32.size]; omega)
  have hspan := lineSpan?_eq h.start (before ++ (line ++ after))
  rw [h.stop] at hspan
  simp only [UInt32.lt_iff_toNat_lt, hs, he, return_before_stop_iff] at hspan
  by_cases hr : line.getLast? = some '\r'
  · rw [if_pos hr] at hspan
    obtain ⟨body, rfl⟩ := List.getLast?_eq_some_iff.mp hr
    have hone : Text.byteSize (body ++ ['\r']) = Text.byteSize body + 1 := Text.byteSize_append ..
    have hle : 1 ≤ (before.byteSize + Text.byteSize (body ++ ['\r'])).toUInt32 := by
      rw [UInt32.le_iff_toNat_le, he, hone]
      exact Nat.le_add_left ..
    refine ⟨_, hspan, hs, ?_⟩
    rw [Text.dropReturn_of_return, UInt32.toNat_sub_of_le _ _ hle, he, hone]
    rfl
  · rw [if_neg hr] at hspan
    refine ⟨_, hspan, hs, ?_⟩
    rw [Text.dropReturn_of_ne hr]
    exact he

/-- The next line starts behind the line break. -/
theorem exists_next {next : Span}
    (hm : (ofText (before ++ (line ++ after))).lineSpan? (i + 2) (before ++ (line ++ after)) =
      some next) :
    ∃ rest, line ++ after = line.dropReturn ++ (line.lineBreak ++ rest) ∧
      next.start.toNat = before.byteSize + line.dropReturn.byteSize + line.lineBreak.byteSize := by
  have hstart := map_start_lineSpan? (ofText (before ++ (line ++ after))) (i + 1)
    (before ++ (line ++ after))
  rw [hm] at hstart
  obtain ⟨rest, rfl, hnext⟩ := h.next next.start hstart.symm
  have hbreak := Text.dropReturn_append_lineBreak line
  have hsize := congrArg Text.byteSize hbreak
  simp only [Text.byteSize_append, Text.byteSize_cons, Text.byteSize_nil,
    show '\n'.utf8Size = 1 from rfl] at ht hsize
  refine ⟨rest, ?_, ?_⟩
  · rw [← List.append_assoc, hbreak, List.append_assoc]
    rfl
  · rw [hnext, UInt32.toNat_ofNat_of_lt' (by simp [UInt32.size]; omega)]
    omega

end Indexes

/-- The span of a line covers it, less a carriage return at its end. -/
theorem lineSpan?_of_lines {t line : Text} {i : Nat} (ht : t.byteSize < 2 ^ 32)
    (h : t.lines[i]? = some line) :
    ∃ (before after : Text) (span : Span), t = before ++ (line.dropReturn ++ after) ∧
      (ofText t).lineSpan? (i + 1) t = some span ∧
      span.start.toNat = before.byteSize ∧
      span.stop.toNat = before.byteSize + line.dropReturn.byteSize := by
  obtain ⟨more, hmore⟩ := Text.lines_prefix_pieces t
  have hp : (Text.pieces ['\n'] t)[i]? = some line := by
    rw [← hmore, List.getElem?_append_left (List.getElem?_eq_some_iff.mp h).1, h]
  obtain ⟨before, after, rfl, hi⟩ := exists_indexes hp
  obtain ⟨span, hspan, hstart, hstop⟩ := hi.exists_span ht
  obtain ⟨gone, hgone⟩ := Text.dropReturn_isPrefix line
  refine ⟨before, gone ++ after, span, ?_, hspan, hstart, hstop⟩
  rw [← List.append_assoc line.dropReturn, hgone]

/-- A line of a text, counted from 1, has a span just if it is one of the pieces between the line
feeds. The span covers the piece less a carriage return at its end, and what stands between it and
the span of the next line is the line break. -/
theorem spans_cover_lines {t : Text} (ht : t.byteSize < 2 ^ 32) (n : Nat) :
    (((ofText t).lineSpan? n t).isSome = true ↔ 1 ≤ n ∧ n ≤ t.count '\n' + 1) ∧
      ∀ span ∈ (ofText t).lineSpan? n t, ∃ line, (Text.pieces ['\n'] t)[n - 1]? = some line ∧
        span.Covers t line.dropReturn ∧
        ∀ next ∈ (ofText t).lineSpan? (n + 1) t, span.stop < next.start ∧
          t.slice? span.stop.toNat next.start.toNat = some line.lineBreak := by
  have hlen : (ofText t).starts.length = t.count '\n' + 1 :=
    congrArg (· + 1) (length_startsAfter 0 t)
  have hsome := isSome_lineSpan?_iff (ofText t) n t
  rw [hlen] at hsome
  refine ⟨hsome, fun span hspan => ?_⟩
  obtain ⟨hn, hcount⟩ := hsome.mp (Option.isSome_of_mem hspan)
  obtain ⟨i, rfl⟩ := Nat.exists_eq_add_of_le' hn
  obtain ⟨line, hline⟩ : ∃ line, (Text.pieces ['\n'] t)[i]? = some line := by
    rw [← Option.isSome_iff_exists, isSome_getElem?, Text.length_pieces_singleton]
    omega
  obtain ⟨before, after, rfl, hi⟩ := exists_indexes hline
  obtain ⟨found, hfound, hstart, hstop⟩ := hi.exists_span ht
  obtain rfl := Option.some.inj (hfound.symm.trans hspan)
  refine ⟨line, hline, ?_, fun next hm => ?_⟩
  · obtain ⟨gone, hgone⟩ := Text.dropReturn_isPrefix line
    have hcovers := Span.covers_of_append hstart hstop (gone ++ after)
    rwa [← List.append_assoc line.dropReturn, hgone] at hcovers
  · obtain ⟨rest, hrest, hnext⟩ := hi.exists_next ht hm
    have hpos := Text.byteSize_pos_iff.mpr line.lineBreak_ne_nil
    have hgap := Text.slice?_append (before ++ line.dropReturn) line.lineBreak rest
    rw [Text.byteSize_append, ← hnext, ← hstop, List.append_assoc, ← hrest] at hgap
    exact ⟨UInt32.lt_iff_toNat_lt.mpr (by omega), hgap⟩

/-- The second line is empty up to its carriage return; the letter of the first takes two bytes. -/
theorem spans_cover_lines_returns :
    let t : Text := "é\r\n\r\nb\n".toList
    t.byteSize < 2 ^ 32 ∧ (ofText t).lineSpan? 1 t = some ⟨0, 2⟩ ∧
      (ofText t).lineSpan? 2 t = some ⟨4, 4⟩ ∧ t.slice? 2 4 = some "\r\n".toList := by
  intro t
  have ht : t.byteSize < 2 ^ 32 := by decide +kernel
  have hfirst : (ofText t).lineSpan? 1 t = some ⟨0, 2⟩ := by decide +kernel
  have hsecond : (ofText t).lineSpan? 2 t = some ⟨4, 4⟩ := by decide +kernel
  obtain ⟨line, hline, -, hgap⟩ := (spans_cover_lines ht 1).2 _ hfirst
  have hpiece : (Text.pieces ['\n'] t)[1 - 1]? = some "é\r".toList := by decide +kernel
  obtain rfl := Option.some.inj (hpiece.symm.trans hline)
  exact ⟨ht, hfirst, hsecond, (hgap _ hsecond).2⟩

end LineIndex
end IndentMarkup
