import IndentMarkup.Proofs.Markup.Chunk

/-! Where attributes stand in the text that they are read from. A value can take inline content
along, or start with a blank; which of them do shows in the text behind their equals signs. -/
namespace IndentMarkup.Attribute
open Text

/-- Attributes at the front of a text in order, each with all that stands behind its equals sign. -/
inductive Placed : (t : Text) → (places : List (Attribute × Text)) → Prop
  | nil (t : Text) : Placed t []
  | cons {name value after : Text} {places : List (Attribute × Text)} : '=' ∉ name → '<' ∉ name →
      EndsBefore value after → Placed after places →
      Placed (name ++ '=' :: (value ++ after))
        ((⟨name.trim, value.trimEnd⟩, value ++ after) :: places)

/-- A text with a bracket in front of its first equals sign, and a blank somewhere between the two.
-/
def TakesContent (behind : Text) : Prop :=
  ∃ front content after, behind = front ++ '<' :: content ++ '=' :: after ∧ '=' ∉ front ∧
    '=' ∉ content ∧ ∃ c ∈ content, isInlineBlank c = true

section Split

variable {name value name' value' : Text}

/-- The first equals sign splits a text in one way only. -/
theorem eq_of_append_equals (hn : '=' ∉ name) (hn' : '=' ∉ name')
    (h : name ++ '=' :: value = name' ++ '=' :: value') : name = name' ∧ value = value' := by
  have hc := cut?_singleton hn value
  rw [h, cut?_singleton hn' value'] at hc
  obtain ⟨rfl, rfl⟩ := Prod.mk.inj (Option.some.inj hc)
  exact ⟨rfl, rfl⟩

theorem StandsFor.eq {a : Attribute} (hn : '=' ∉ name) (h : StandsFor (name ++ '=' :: value) a) :
    a = ⟨name.trim, value.trimEnd⟩ := by
  obtain ⟨name', value', ht, hn', rfl⟩ := h
  have he : isBlank '=' = false := by decide
  have hs : '=' ∉ trimStart name := fun hm => hn (trimStart_subset name hm)
  rw [trim_append_cons he] at ht
  obtain ⟨rfl, rfl⟩ := eq_of_append_equals hs hn' ht
  rw [trim_trimStart]

end Split

section Placed

variable {line : Nat} {t rest : Text} {attributes : List Attribute}

theorem exists_placed_of_chunked {chunks : List Text} (hc : Chunked rest chunks)
    (hs : List.Forall₂ StandsFor chunks attributes) :
    ∃ places, Placed (chunks.flatten ++ rest) places ∧ places.map Prod.fst = attributes := by
  induction hs with
  | nil => exact ⟨[], .nil _, rfl⟩
  | @cons chunk a chunks attributes ha _ ih =>
    obtain ⟨hchunk, hchunks⟩ := hc
    obtain ⟨places, hp, hmap⟩ := ih hchunks
    cases hchunk with
    | @intro name value after hn hl he =>
      obtain rfl := ha.eq hn
      have hplaced := Placed.cons hn hl he hp
      have ht : ((name ++ '=' :: value) :: chunks).flatten ++ rest =
          name ++ '=' :: (value ++ (chunks.flatten ++ rest)) := by simp
      rw [← ht] at hplaced
      exact ⟨_, hplaced, by rw [List.map_cons, hmap]⟩

/-- Each attribute that is read stands in the text. -/
theorem exists_placed_of_parse (h : parse line t = .ok (attributes, rest)) :
    ∃ places, Placed t places ∧ places.map Prod.fst = attributes := by
  obtain ⟨chunks, rest', rfl, hc, ⟨attributes', hs, hf, -⟩ | ⟨p, hs, -⟩⟩ :=
    exists_chunks_of_scan t
  · obtain ⟨rfl, -⟩ : attributes' = attributes ∧ rest'.trim = rest := by
      simpa [parse, hs] using h
    exact exists_placed_of_chunked hc hf
  · simp [parse, hs] at h

theorem Placed.exists_of_mem {places : List (Attribute × Text)} (h : Placed t places)
    {p : Attribute × Text} (hp : p ∈ places) :
    ∃ name value after : Text, EndsBefore value after ∧
      p = (⟨name.trim, value.trimEnd⟩, value ++ after) := by
  induction h with
  | nil => simp at hp
  | @cons name value after places _ _ he _ ih =>
    rcases List.mem_cons.mp hp with rfl | hp
    · exact ⟨name, value, after, he, rfl⟩
    · exact ih hp

theorem trim_rest_of_parse (h : parse line t = .ok (attributes, rest)) : rest.trim = rest := by
  unfold parse at h
  split at h
  · simp at h
  · next attributes' rest' hs =>
    obtain ⟨-, rfl⟩ : attributes' = attributes ∧ rest'.trim = rest := by simpa using h
    exact trim_trim rest'

end Placed

section Content

variable {value after front word rest : Text} {blank : Char}

/-- In front of an equals sign, a bracket counts to the value if it stands before the last blank. -/
theorem bracket_mem_iff_of_inner (hf : '=' ∉ front) (hw : '=' ∉ word)
    (hb : isInlineBlank blank = true) (hword : ∀ c ∈ word, isInlineBlank c = false) :
    '<' ∈ front ↔ TakesContent (front ++ [blank] ++ (word ++ '=' :: rest)) := by
  have hblank : '=' ≠ blank := by
    rintro rfl
    exact absurd hb (by decide)
  constructor
  · intro hm
    obtain ⟨before, content, rfl⟩ := List.append_of_mem hm
    refine ⟨before, content ++ blank :: word, rest, by simp, ?_, ?_, blank, by simp, hb⟩
    · exact fun h => hf (by simp [h])
    · simp only [List.mem_append, List.mem_cons, not_or]
      exact ⟨fun h => hf (by simp [h]), hblank, hw⟩
  · rintro ⟨before, content, after, he, hbefore, hcontent, c, hm, hc⟩
    obtain ⟨inner, outer, rfl⟩ := List.append_of_mem hm
    have hn : '=' ∉ before ++ '<' :: (inner ++ c :: outer) := by
      simp only [List.mem_append, List.mem_cons, not_or] at hcontent ⊢
      exact ⟨hbefore, by decide, hcontent⟩
    have hn' : '=' ∉ front ++ blank :: word := by
      simp only [List.mem_append, List.mem_cons, not_or]
      exact ⟨hf, hblank, hw⟩
    have hsplit : (before ++ '<' :: inner) ++ c :: outer = front ++ blank :: word := by
      have := (eq_of_append_equals hn' hn (by simpa using he)).1
      simpa using this.symm
    -- the blank in the content is not behind the last one, so the bracket stands in front of both
    rcases List.append_eq_append_iff.mp hsplit with ⟨more, rfl, -⟩ | ⟨more, hfront, hmore⟩
    · simp
    · cases more with
      | nil =>
        rw [List.append_nil] at hfront
        simp [← hfront]
      | cons d more =>
        have htail : word = more ++ c :: outer := (List.cons.inj hmore).2
        have hlast := hword c (by simp [htail])
        simp [hlast] at hc

theorem bracket_mem_iff (h : EndsBefore value after) (hu : Unopened value.trimEnd) :
    '<' ∈ value.trimEnd ↔ TakesContent (value ++ after) := by
  have hbracket : isBlank '<' = false := by decide
  rw [mem_trimEnd_iff hbracket]
  cases h with
  | @template p body after hc =>
    rw [trimEnd_template ⟨p, body, rfl, hc⟩] at hu
    exact absurd ⟨body ++ p.closer, by simp⟩ (hu p)
  | last _ hn hl _ =>
    refine iff_of_false hl ?_
    rintro ⟨front, content, rest, he, -⟩
    exact hn (by simp [he])
  | @inner front word rest blank _ hf hw hb hword =>
    have hblank : '<' ≠ blank := by
      rintro rfl
      exact absurd hb (by decide)
    rw [← bracket_mem_iff_of_inner hf hw hb hword]
    simp [hblank]

end Content

/-- A value without blanks at its end is trimmed if the text that it is taken from does not start
with a blank. -/
theorem trim_trimEnd_eq_iff (value after : Text) :
    value.trimEnd.trim = value.trimEnd ↔
      value.trimEnd = [] ∨ ∀ c ∈ (value ++ after).head?, isBlank c = false := by
  obtain ⟨blanks, hv⟩ := trimEnd_isPrefix value
  have hhead : trimEnd value ≠ [] → (value ++ after).head? = (trimEnd value).head? := by
    intro hne
    have he : value ++ after = trimEnd value ++ (blanks ++ after) := by
      rw [← List.append_assoc, hv]
    rw [he, List.head?_append_of_ne_nil _ hne]
  constructor
  · intro ht
    by_cases hne : trimEnd value = []
    · exact .inl hne
    · right
      rw [hhead hne, ← ht]
      exact head_trim _
  · rintro (he | hh)
    · rw [he]
      rfl
    · by_cases hne : trimEnd value = []
      · rw [hne]
        rfl
      · rw [hhead hne] at hh
        exact trim_eq_self hh (getLast_of_trimEnd_eq_self (trimEnd_trimEnd value))

/-- Which values take inline content along. A value that is no placeholder contains a bracket if and
only if, behind its equals sign, one stands in front of the next with a blank between the two. -/
theorem parse_takes_content_iff {line : Nat} {t rest : Text} {attributes : List Attribute}
    (h : parse line t = .ok (attributes, rest)) :
    ∃ places, Placed t places ∧ places.map Prod.fst = attributes ∧
      ∀ p ∈ places, Unopened p.1.value → ('<' ∈ p.1.value ↔ TakesContent p.2) := by
  obtain ⟨places, hp, hmap⟩ := exists_placed_of_parse h
  refine ⟨places, hp, hmap, fun p hm hu => ?_⟩
  obtain ⟨name, value, after, he, rfl⟩ := hp.exists_of_mem hm
  exact bracket_mem_iff he hu

/-- Only the third of four values takes content along. -/
theorem parse_takes_content_iff_third :
    let t := "a=b c=<% < d=e %> f=g <i h=j>".toList
    let attributes : List Attribute :=
      [⟨"a".toList, "b".toList⟩, ⟨"c".toList, "<% < d=e %>".toList⟩, ⟨"f".toList, "g <i".toList⟩,
        ⟨"h".toList, "j>".toList⟩]
    parse 1 t = .ok (attributes, []) ∧
      ∃ places, Placed t places ∧ places.map Prod.fst = attributes ∧
        ∀ p ∈ places, Unopened p.1.value → ('<' ∈ p.1.value ↔ TakesContent p.2) := by
  intro t attributes
  have h : parse 1 t = .ok (attributes, []) := by decide +kernel
  exact ⟨h, parse_takes_content_iff h⟩

/-- Reading does not stop at content that has an equals sign behind a blank. -/
theorem parse_reads_past_content :
    parse 1 "href=# <a b=c>".toList =
        .ok ([⟨"href".toList, "# <a".toList⟩, ⟨"b".toList, "c>".toList⟩], []) ∧
      Unopened "# <a".toList ∧ '<' ∈ "# <a".toList := by
  refine ⟨by decide +kernel, ?_, by decide⟩
  intro p
  cases p <;> decide

/-- What of an attribute list is trimmed: names, the text left over, the ends of values, and values
as a whole if and only if no blank stands right behind their equals sign. -/
theorem parse_trims_iff {line : Nat} {t rest : Text} {attributes : List Attribute}
    (h : parse line t = .ok (attributes, rest)) :
    rest.trim = rest ∧ ∃ places, Placed t places ∧ places.map Prod.fst = attributes ∧
      ∀ p ∈ places, p.1.name.trim = p.1.name ∧ p.1.value.trimEnd = p.1.value ∧
        (p.1.value.trim = p.1.value ↔
          p.1.value = [] ∨ ∀ c ∈ p.2.head?, isBlank c = false) := by
  obtain ⟨places, hp, hmap⟩ := exists_placed_of_parse h
  refine ⟨trim_rest_of_parse h, places, hp, hmap, fun p hm => ?_⟩
  obtain ⟨name, value, after, -, rfl⟩ := hp.exists_of_mem hm
  exact ⟨trim_trim name, trimEnd_trimEnd value, trim_trimEnd_eq_iff value after⟩

/-- Of a value, a placeholder and an empty value, only the first keeps a blank. -/
theorem parse_trims_iff_first :
    let t := " a = b c=\x7b\x7bd\x7d\x7d e= <f> ".toList
    let attributes : List Attribute :=
      [⟨"a".toList, " b".toList⟩, ⟨"c".toList, "\x7b\x7bd\x7d\x7d".toList⟩, ⟨"e".toList, []⟩]
    parse 1 t = .ok (attributes, "<f>".toList) ∧
      ∃ places, Placed t places ∧ places.map Prod.fst = attributes ∧
        ∀ p ∈ places, p.1.name.trim = p.1.name ∧ p.1.value.trimEnd = p.1.value ∧
          (p.1.value.trim = p.1.value ↔
            p.1.value = [] ∨ ∀ c ∈ p.2.head?, isBlank c = false) := by
  intro t attributes
  have h : parse 1 t = .ok (attributes, "<f>".toList) := by decide +kernel
  exact ⟨h, (parse_trims_iff h).2⟩

/-- A blank behind an equals sign becomes part of the value. -/
theorem parse_keeps_blank_in_value :
    parse 1 "a= b".toList = .ok ([⟨"a".toList, " b".toList⟩], []) ∧
      Text.trim " b".toList ≠ " b".toList := by
  refine ⟨by decide +kernel, by decide⟩

end IndentMarkup.Attribute
