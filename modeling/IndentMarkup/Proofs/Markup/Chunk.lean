import Mathlib.Data.List.Forall2
import IndentMarkup.Proofs.Markup.Attribute

/-! How a text is cut into attributes. The chunks that are read and the text left over make up the
whole text, and each cut is where the text around it says. -/
namespace IndentMarkup.Attribute
open Text

/-- Whether no placeholder starts a text. -/
def Unopened (t : Text) : Prop :=
  ∀ p : Placeholder, ¬p.opener <+: t

/-- A value that ends in front of `after`. -/
inductive EndsBefore : (value after : Text) → Prop
  /-- A placeholder ends with its first closer. -/
  | template {p : Placeholder} {body after : Text} :
      ¬p.closer <:+: (body ++ p.closer).dropLast →
      EndsBefore (p.opener ++ body ++ p.closer) after
  /-- Where no equals sign follows, the inline content ends the value, or the text does. -/
  | last {value after : Text} : Unopened (value ++ after) → '=' ∉ value ++ after → '<' ∉ value →
      after = [] ∨ after.head? = some '<' → EndsBefore value after
  /-- Otherwise the last blank in front of the next equals sign does. -/
  | inner {front word rest : Text} {blank : Char} :
      Unopened (front ++ blank :: word ++ '=' :: rest) → '=' ∉ front → '=' ∉ word →
      isInlineBlank blank = true → (∀ c ∈ word, isInlineBlank c = false) →
      EndsBefore (front ++ [blank]) (word ++ '=' :: rest)

/-- A chunk of an attribute list, with the text behind it. -/
inductive Chunk : (chunk after : Text) → Prop
  | intro {name value after : Text} : '=' ∉ name → '<' ∉ name → EndsBefore value after →
      Chunk (name ++ '=' :: value) after

/-- Chunks one after the other, each cut with regard to all that follows it. -/
def Chunked (rest : Text) : List Text → Prop
  | [] => True
  | c :: chunks => Chunk c (chunks.flatten ++ rest) ∧ Chunked rest chunks

/-- The attribute that a chunk stands for. -/
def StandsFor (chunk : Text) (a : Attribute) : Prop :=
  ∃ name value, chunk.trim = name ++ '=' :: value ∧ '=' ∉ name ∧ a = ⟨name.trim, value⟩

/-- A text in which no attribute is found: it has no equals sign, or inline content in front of the
first one, or no blank between the first two to say where a value ends. -/
def Stops (t : Text) : Prop :=
  '=' ∉ t ∨ ∃ name after, t = name ++ '=' :: after ∧ '=' ∉ name ∧
    ('<' ∈ name ∨ Unopened after ∧ ∃ word rest, after = word ++ '=' :: rest ∧ '=' ∉ word ∧
      ∀ c ∈ word, isInlineBlank c = false)

/-- A text whose first value is a placeholder without a closer. -/
def OpensUnclosed (p : Placeholder) (t : Text) : Prop :=
  ∃ name inner, t = name ++ '=' :: (p.opener ++ inner) ∧ '=' ∉ name ∧ '<' ∉ name ∧
    ¬p.closer <:+: inner

theorem closer_ne_nil (p : Placeholder) : p.closer ≠ [] := by
  cases p <;> simp [Placeholder.closer]

theorem unopened_of_start? {t : Text} (h : Placeholder.start? t = none) : Unopened t := by
  rintro p ⟨inner, rfl⟩
  rw [start?_opener] at h
  simp at h

theorem isInlineBlank_of_splitAfterLastBlank?_eq_none {t : Text}
    (h : splitAfterLastBlank? t = none) : ∀ c ∈ t, isInlineBlank c = false := by
  induction t with
  | nil => simp
  | cons c t ih =>
    rw [splitAfterLastBlank?] at h
    split at h
    · simp at h
    · next hs =>
      have hc : isInlineBlank c = false := by
        by_contra hb
        simp [hb] at h
      intro d hd
      rcases List.mem_cons.mp hd with rfl | hd
      · exact hc
      · exact ih hs d hd

/-- The cut is behind a blank, and no blank follows. -/
theorem exists_of_splitAfterLastBlank? {t value word : Text}
    (h : splitAfterLastBlank? t = some (value, word)) :
    ∃ front blank, value = front ++ [blank] ∧ isInlineBlank blank = true ∧
      ∀ c ∈ word, isInlineBlank c = false := by
  induction t generalizing value with
  | nil => simp [splitAfterLastBlank?] at h
  | cons c t ih =>
    rw [splitAfterLastBlank?] at h
    split at h
    · next value' word' hs =>
      obtain ⟨rfl, rfl⟩ : c :: value' = value ∧ word' = word := by simpa using h
      obtain ⟨front, blank, rfl, hb, hw⟩ := ih hs
      exact ⟨c :: front, blank, rfl, hb, hw⟩
    · next hs =>
      by_cases hc : isInlineBlank c = true
      · obtain ⟨rfl, rfl⟩ : [c] = value ∧ t = word := by simpa [hc] using h
        exact ⟨[], c, rfl, hc, isInlineBlank_of_splitAfterLastBlank?_eq_none hs⟩
      · simp [hc] at h

theorem endsBefore_of_scanValue {t value rest : Text} (h : scanValue t = .value value rest) :
    EndsBefore value rest := by
  unfold scanValue at h
  split at h
  · next p inner hp =>
    split at h
    · simp at h
    · next body after hc =>
      obtain ⟨rfl, rfl⟩ : p.opener ++ body ++ p.closer = value ∧ after = rest := by
        simpa using h
      exact .template (not_infix_dropLast_of_cut? (closer_ne_nil p) hc)
  · next hp =>
    have hu := unopened_of_start? hp
    split at h
    · next hc =>
      obtain ⟨rfl, rfl⟩ : t.takeWhile (· != '<') = value ∧ t.dropWhile (· != '<') = rest := by
        simpa using h
      have ht : t.takeWhile (· != '<') ++ t.dropWhile (· != '<') = t :=
        List.takeWhile_append_dropWhile
      refine .last (by rwa [ht]) (by rw [ht]; exact cut?_singleton_eq_none_iff.mp hc) ?_ ?_
      · intro hm
        have := List.mem_takeWhile_imp hm
        simp at this
      · have hd := List.head?_dropWhile_not (· != '<') t
        cases hr : t.dropWhile (· != '<') with
        | nil => exact .inl rfl
        | cons c rest =>
          right
          rw [hr] at hd
          simpa using hd
    · next before after hc =>
      split at h
      · simp at h
      · next value' word hs =>
        obtain ⟨rfl, rfl⟩ : value' = value ∧ word ++ '=' :: after = rest := by simpa using h
        obtain ⟨front, blank, rfl, hb, hw⟩ := exists_of_splitAfterLastBlank? hs
        have he := eq_of_splitAfterLastBlank? hs
        obtain ⟨hcut, hn⟩ := eq_of_cut?_singleton hc
        have ht : t = front ++ blank :: word ++ '=' :: after := by
          rw [hcut, he]
          simp
        rw [he] at hn
        exact .inner (ht ▸ hu) (fun hm => hn (by simp [hm])) (fun hm => hn (by simp [hm])) hb hw

theorem exists_of_scanValue_ambiguous {t : Text} (h : scanValue t = .ambiguous) :
    Unopened t ∧ ∃ word rest, t = word ++ '=' :: rest ∧ '=' ∉ word ∧
      ∀ c ∈ word, isInlineBlank c = false := by
  unfold scanValue at h
  split at h
  · split at h <;> simp at h
  · next hp =>
    split at h
    · simp at h
    · next before after hc =>
      split at h
      · next hs =>
        obtain ⟨ht, hn⟩ := eq_of_cut?_singleton hc
        exact ⟨unopened_of_start? hp, before, after, ht, hn,
          isInlineBlank_of_splitAfterLastBlank?_eq_none hs⟩
      · simp at h

theorem exists_of_scanValue_unclosed {t : Text} {p : Placeholder}
    (h : scanValue t = .unclosed p) : ∃ inner, t = p.opener ++ inner ∧ ¬p.closer <:+: inner := by
  unfold scanValue at h
  split at h
  · next q inner hq =>
    split at h
    · next hc =>
      obtain rfl : q = p := by simpa using h
      exact ⟨inner, Placeholder.eq_of_start? hq, (cut?_eq_none_iff (closer_ne_nil q)).mp hc⟩
    · simp at h
  · split at h
    · simp at h
    · split at h <;> simp at h

theorem standsFor_of_no_equals {name : Text} (hn : '=' ∉ name) (value : Text) :
    StandsFor (name ++ '=' :: value) ⟨name.trim, value.trimEnd⟩ := by
  have he : isBlank '=' = false := by decide
  refine ⟨name.trimStart, value.trimEnd, trim_append_cons he name value, ?_, ?_⟩
  · exact fun hm => hn (trimStart_subset name hm)
  · rw [trim_trimStart]

/-- Scanning cuts a text into chunks, and ends at the first place where none can be cut off. -/
theorem exists_chunks_of_scan (t : Text) :
    ∃ chunks rest, t = chunks.flatten ++ rest ∧ Chunked rest chunks ∧
      ((∃ attributes, scan t = .ok (attributes, rest) ∧ List.Forall₂ StandsFor chunks attributes ∧
          Stops rest) ∨
        ∃ p, scan t = .error p ∧ OpensUnclosed p rest) := by
  -- each step of the scan either stops on the text that is left or cuts one chunk off its front
  fun_induction scan t with
  | case1 t hc =>
    have hn : '=' ∉ t := cut?_singleton_eq_none_iff.mp hc
    exact ⟨[], t, rfl, trivial, .inl ⟨[], rfl, .nil, .inl hn⟩⟩
  | case2 t name after hc hl =>
    obtain ⟨ht, hn⟩ := eq_of_cut?_singleton hc
    have hs : Stops t := .inr ⟨name, after, ht, hn, .inl (by simpa using hl)⟩
    exact ⟨[], t, rfl, trivial, .inl ⟨[], rfl, .nil, hs⟩⟩
  | case3 t name after hc hl hv =>
    obtain ⟨ht, hn⟩ := eq_of_cut?_singleton hc
    have hs : Stops t := .inr ⟨name, after, ht, hn, .inr (exists_of_scanValue_ambiguous hv)⟩
    exact ⟨[], t, rfl, trivial, .inl ⟨[], rfl, .nil, hs⟩⟩
  | case4 t name after hc hl p hv =>
    obtain ⟨ht, hn⟩ := eq_of_cut?_singleton hc
    obtain ⟨inner, rfl, hi⟩ := exists_of_scanValue_unclosed hv
    have hu : OpensUnclosed p t := ⟨name, inner, ht, hn, by simpa using hl, hi⟩
    exact ⟨[], t, rfl, trivial, .inr ⟨p, rfl, hu⟩⟩
  | case5 t name after hc hl value tail hv ih =>
    obtain ⟨hcut, hn⟩ := eq_of_cut?_singleton hc
    have ht : t = name ++ '=' :: value ++ tail := by
      rw [hcut, eq_of_scanValue hv]
      simp
    obtain ⟨chunks, rest, htail, hchunks, hr⟩ := ih
    have hchunk : Chunk (name ++ '=' :: value) (chunks.flatten ++ rest) :=
      .intro hn (by simpa using hl) (htail ▸ endsBefore_of_scanValue hv)
    refine ⟨(name ++ '=' :: value) :: chunks, rest, ?_, ⟨hchunk, hchunks⟩, ?_⟩
    · rw [ht, htail]
      simp
    · rcases hr with ⟨attributes, hs, hf, hstop⟩ | ⟨p, hs, hu⟩
      · left
        refine ⟨⟨name.trim, value.trimEnd⟩ :: attributes, ?_, ?_, hstop⟩
        · rw [hs]
          rfl
        · exact .cons (standsFor_of_no_equals hn value) hf
      · right
        refine ⟨p, ?_, hu⟩
        rw [hs]
        rfl

/-- Parsing attributes loses nothing and stops where it should. The text is cut into chunks and a
rest; either each chunk gives one attribute, in order, and no further chunk can be cut off the rest,
or the rest starts with an attribute whose placeholder is not closed. -/
theorem parse_cuts_chunks (line : Nat) (t : Text) :
    ∃ chunks rest, t = chunks.flatten ++ rest ∧ Chunked rest chunks ∧
      ((∃ attributes, parse line t = .ok (attributes, rest.trim) ∧
          List.Forall₂ StandsFor chunks attributes ∧ Stops rest) ∨
        ∃ p, parse line t = .error (.unclosedPlaceholder p line) ∧ OpensUnclosed p rest) := by
  obtain ⟨chunks, rest, ht, hc, hr⟩ := exists_chunks_of_scan t
  refine ⟨chunks, rest, ht, hc, ?_⟩
  rcases hr with ⟨attributes, hs, hf, hstop⟩ | ⟨p, hs, hu⟩
  · exact .inl ⟨attributes, by simp [parse, hs], hf, hstop⟩
  · exact .inr ⟨p, by simp [parse, hs], hu⟩

/-- A plain value with a blank inside, a placeholder with an equals sign, and an equals sign too
many. -/
example : parse 1 "a=b c d=\x7b\x7b e=f \x7d\x7dg=h=i".toList =
    .ok ([⟨"a".toList, "b c".toList⟩, ⟨"d".toList, "\x7b\x7b e=f \x7d\x7d".toList⟩],
      "g=h=i".toList) := by
  decide +kernel

end IndentMarkup.Attribute
