import IndentMarkup.Proofs.Markup.Attribute

/-! Attributes written out with any gaps between them and read back. How wide the gaps are makes no
difference, not even behind a plain value, which takes the gap along at first. -/
namespace IndentMarkup.Attribute
open Text

/-- An attribute that can be read back, and spaces or tabs, at least one, to stand behind it. -/
structure Spaced (a : Attribute) (gap : Text) : Prop where
  printable : a.Printable
  gap_ne : gap ≠ []
  blank : ∀ c ∈ gap, isInlineBlank c = true

/-- Attributes on a line, each with the gap behind it. -/
def printSpaced (items : List (Attribute × Text)) : Text :=
  items.flatMap fun (a, gap) => a.print ++ gap

theorem printSpaced_cons (a : Attribute) (gap : Text) (items : List (Attribute × Text)) :
    printSpaced ((a, gap) :: items) = a.print ++ (gap ++ printSpaced items) := by
  simp [printSpaced]

/-- An attribute is read back with its gap in front of the end of the text, of another attribute or
of inline content. A placeholder shows its own end, so anything may follow it. -/
theorem parse_print_gap {a : Attribute} {gap rest : Text} (ha : Spaced a gap)
    (hr : rest = [] ∨ IsTemplate a.value ∨ Boundary rest) (line : Nat) :
    parse line (a.print ++ (gap ++ rest)) =
      (parse line rest).map fun (as, rest) => (a :: as, rest) := by
  have hgap : parse line (gap ++ rest) = parse line rest := parse_blank_append ha.blank line rest
  rw [← hgap]
  rcases hr with rfl | ht | hb
  · rcases ha.printable.value with hp | ht
    · have hv : scanValue (a.value ++ (gap ++ [])) = .value (a.value ++ gap) [] := by
        rw [List.append_nil]
        exact scanValue_plain hp ha.blank
      exact parse_print_of_scanValue ha.printable.name ha.blank hv (hp.trimEnd_append ha.blank) line
    · exact parse_print_append ha.printable (.inl ht) line
  · exact parse_print_append ha.printable (.inl ht) line
  · have hf : Follows a.value (gap ++ rest) :=
      .inr (.inr ⟨gap, rest, rfl, ha.gap_ne, ha.blank, hb⟩)
    exact parse_print_append ha.printable hf line

theorem parse_ending {ending : Text} (he : ending = [] ∨ ending.head? = some '<') (line : Nat) :
    parse line ending = .ok ([], ending.trim) := by
  apply parse_rest
  intro hm
  rcases he with rfl | hb
  · simp at hm
  · obtain ⟨content, rfl⟩ := List.head?_eq_some_iff.mp hb
    simp

theorem parse_printSpaced {items : List (Attribute × Text)} {ending : Text}
    (hi : ∀ i ∈ items, Spaced i.1 i.2) (he : ending = [] ∨ ending.head? = some '<')
    (hl : ∀ i ∈ items.getLast?, IsPlain i.1.value → '=' ∉ ending) (line : Nat) :
    parse line (printSpaced items ++ ending) = .ok (items.map Prod.fst, ending.trim) := by
  induction items with
  | nil => exact parse_ending he line
  | cons item items ih =>
    obtain ⟨a, gap⟩ := item
    have ha : Spaced a gap := hi (a, gap) List.mem_cons_self
    have hrest : printSpaced items ++ ending = [] ∨ IsTemplate a.value ∨
        Boundary (printSpaced items ++ ending) := by
      cases items with
      | nil =>
        rcases he with rfl | hb
        · exact .inl rfl
        · rcases ha.printable.value with hp | ht
          · have hn : '=' ∉ ending := hl (a, gap) rfl hp
            exact .inr (.inr (by simpa [Boundary, printSpaced, hn] using hb))
          · exact .inr (.inl ht)
      | cons next items =>
        obtain ⟨b, gap'⟩ := next
        have hb : Spaced b gap' := hi (b, gap') (by simp)
        rw [printSpaced_cons, List.append_assoc]
        exact .inr (.inr (boundary_print hb.printable _))
    have hlast : ∀ i ∈ items.getLast?, IsPlain i.1.value → '=' ∉ ending := by
      intro i hm
      apply hl i
      rw [List.getLast?_cons, hm]
      rfl
    rw [printSpaced_cons, List.append_assoc, List.append_assoc, parse_print_gap ha hrest,
      ih (fun i hm => hi i (List.mem_cons_of_mem _ hm)) hlast]
    rfl

/-- Parsing inverts printing. Attributes written out one after the other, with any gap behind each
of them and any blanks in front, are read back in order, and what is left is the text behind them:
nothing, or inline content, which must have no equals sign if the value in front of it is plain. -/
theorem parse_inverts_printSpaced {w ending : Text} {items : List (Attribute × Text)}
    (hw : ∀ c ∈ w, isInlineBlank c = true) (hi : ∀ i ∈ items, Spaced i.1 i.2)
    (he : ending = [] ∨ ending.head? = some '<')
    (hl : ∀ i ∈ items.getLast?, IsPlain i.1.value → '=' ∉ ending) (line : Nat) :
    parse line (w ++ (printSpaced items ++ ending)) =
      .ok (items.map Prod.fst, ending.trim) := by
  rw [parse_blank_append hw]
  exact parse_printSpaced hi he hl line

/-- A plain value with a blank inside, an empty one without a name, and placeholders with brackets
and equals signs, in front of content with an equals sign. -/
theorem parse_inverts_printSpaced_mixed :
    let items : List (Attribute × Text) :=
      [(⟨"a".toList, "b c".toList⟩, " \t".toList), (⟨[], []⟩, "\t".toList),
        (⟨"d".toList, "\x7b\x7b e=f < \x7d\x7d".toList⟩, "  ".toList),
        (⟨"g".toList, "<%= h = i %>".toList⟩, " ".toList)]
    (∀ i ∈ items, Spaced i.1 i.2) ∧
      printSpaced items ++ "<j k=l> ".toList =
        "a=b c \t=\td=\x7b\x7b e=f < \x7d\x7d  g=<%= h = i %> <j k=l> ".toList ∧
      parse 1 (printSpaced items ++ "<j k=l> ".toList) =
        .ok (items.map Prod.fst, "<j k=l>".toList) := by
  intro items
  have hplain : IsPlain "b c".toList := ⟨by decide, by decide, by decide, by decide⟩
  have hempty : IsPlain [] := ⟨by decide, by decide, by decide, by decide⟩
  have hbraces : IsTemplate "\x7b\x7b e=f < \x7d\x7d".toList :=
    ⟨.braces, " e=f < ".toList, rfl, by decide⟩
  have hpercent : IsTemplate "<%= h = i %>".toList := ⟨.percent, "= h = i ".toList, rfl, by decide⟩
  have hi : ∀ i ∈ items, Spaced i.1 i.2 := by
    simp only [items, List.forall_mem_cons]
    exact ⟨⟨⟨by decide, .inl hplain⟩, by decide, by simp [isInlineBlank]⟩,
      ⟨⟨by decide, .inl hempty⟩, by decide, by simp [isInlineBlank]⟩,
      ⟨⟨by decide, .inr hbraces⟩, by decide, by simp [isInlineBlank]⟩,
      ⟨⟨by decide, .inr hpercent⟩, by decide, by simp [isInlineBlank]⟩, by simp⟩
  have hl : ∀ i ∈ items.getLast?, IsPlain i.1.value → '=' ∉ "<j k=l> ".toList := by
    intro i hm hp
    obtain rfl : (⟨"g".toList, "<%= h = i %>".toList⟩, " ".toList) = i := by simpa [items] using hm
    exact absurd (by decide) hp.no_bracket
  exact ⟨hi, by decide, parse_inverts_printSpaced (w := []) (by simp) hi (.inr rfl) hl 1⟩

end IndentMarkup.Attribute
