import IndentMarkup.Proofs.Text.Cut
import IndentMarkup.Text.Nesting

/-! The nesting level of a text, read one position after the other. -/
namespace IndentMarkup.Text

variable {opener closer t : Text} {c : Char}

theorem nestLevel_eq (opener closer t : Text) :
    nestLevel opener closer t =
      match cut? opener t, cut? closer t with
      | none, none => 0
      | some (_, rest), none => nestLevel opener closer rest + 1
      | none, some (_, rest) => nestLevel opener closer rest - 1
      | some (beforeOpener, afterOpener), some (beforeCloser, afterCloser) =>
        if beforeCloser.length < beforeOpener.length then nestLevel opener closer afterCloser - 1
        else nestLevel opener closer afterOpener + 1 := by
  rw [nestLevel]
  split <;> simp [*]

theorem cut?_cons_of_skip {mark rest : Text} (h : skipMark? mark (c :: t) = some rest) :
    cut? mark (c :: t) = some ([], rest) := by
  rw [cut?, h]

theorem cut?_cons_of_no_skip {mark : Text} (h : skipMark? mark (c :: t) = none) :
    cut? mark (c :: t) = (cut? mark t).map fun (before, after) => (c :: before, after) := by
  rw [cut?, h]

theorem nestLevel_nil : nestLevel opener closer [] = 0 := by
  simp [nestLevel_eq, cut?]

theorem nestLevel_opener {rest : Text} (ho : skipMark? opener (c :: t) = some rest) :
    nestLevel opener closer (c :: t) = nestLevel opener closer rest + 1 := by
  rw [nestLevel_eq, cut?_cons_of_skip ho]
  cases cut? closer (c :: t) with
  | none => rfl
  | some p => simp

theorem nestLevel_closer {rest : Text} (ho : skipMark? opener (c :: t) = none)
    (hc : skipMark? closer (c :: t) = some rest) :
    nestLevel opener closer (c :: t) = nestLevel opener closer rest - 1 := by
  rw [nestLevel_eq, cut?_cons_of_skip hc, cut?_cons_of_no_skip ho]
  cases cut? opener t with
  | none => rfl
  | some p => simp

theorem nestLevel_other (ho : skipMark? opener (c :: t) = none)
    (hc : skipMark? closer (c :: t) = none) :
    nestLevel opener closer (c :: t) = nestLevel opener closer t := by
  rw [nestLevel_eq, cut?_cons_of_no_skip ho, cut?_cons_of_no_skip hc, nestLevel_eq opener closer t]
  cases cut? opener t with
  | none => cases cut? closer t <;> rfl
  | some p => cases cut? closer t <;> simp

theorem skipMark?_singleton (m : Char) (c : Char) (t : Text) :
    skipMark? [m] (c :: t) = if m = c then some t else none := by
  simp [skipMark?, dropStart?]

/-- Two distinct characters as delimiters: the level counts the one against the other. -/
theorem nestLevel_eq_count {a b : Char} (hab : a ≠ b) (t : Text) :
    nestLevel [a] [b] t = (t.count a : Int) - t.count b := by
  induction t with
  | nil => simp [nestLevel_nil]
  | cons c t ih =>
    have hs := fun m => skipMark?_singleton m c t
    by_cases ho : a = c
    · subst ho
      rw [nestLevel_opener (by simpa using hs a), ih, List.count_cons_self,
        List.count_cons_of_ne hab]
      omega
    have ho' : skipMark? [a] (c :: t) = none := by simpa [ho] using hs a
    by_cases hc : b = c
    · subst hc
      rw [nestLevel_closer ho' (by simpa using hs b), ih, List.count_cons_self,
        List.count_cons_of_ne (Ne.symm hab)]
      omega
    · have hc' : skipMark? [b] (c :: t) = none := by simpa [hc] using hs b
      rw [nestLevel_other ho' hc', ih, List.count_cons_of_ne (Ne.symm ho),
        List.count_cons_of_ne (Ne.symm hc)]

/-- The brackets that a text leaves open are those it opens less those it closes. -/
theorem bracketLevel_eq_count (t : Text) :
    bracketLevel t = (t.count '<' : Int) - t.count '>' :=
  nestLevel_eq_count (by decide) t

/-- A mark that is not empty stands at the front of a text. -/
def Stands (mark t : Text) : Prop :=
  mark ≠ [] ∧ mark <+: t

instance (mark t : Text) : Decidable (Stands mark t) :=
  inferInstanceAs (Decidable (mark ≠ [] ∧ mark <+: t))

theorem length_drop_of_stands {mark : Text} (h : Stands mark (c :: t)) :
    ((c :: t).drop mark.length).length < (c :: t).length := by
  have hpos := List.length_pos_iff.mpr h.1
  rw [List.length_drop, List.length_cons]
  omega

/-- The level by a walk over a text, position by position. Where an opener stands it is counted and
passed over, else where a closer stands that one is; from any other position the walk goes on by one
character. -/
def scanLevel (opener closer : Text) : Text → Int
  | [] => 0
  | c :: t =>
    if Stands opener (c :: t) then scanLevel opener closer ((c :: t).drop opener.length) + 1
    else if Stands closer (c :: t) then scanLevel opener closer ((c :: t).drop closer.length) - 1
    else scanLevel opener closer t
termination_by t => t.length
decreasing_by
  · next ho => exact length_drop_of_stands ho
  · next hc => exact length_drop_of_stands hc
  · exact Nat.lt_succ_self _

theorem skipMark?_of_stands {mark : Text} (h : Stands mark t) :
    skipMark? mark t = some (t.drop mark.length) := by
  obtain ⟨hm, after, rfl⟩ := h
  rw [skipMark?_append hm, List.drop_left]

theorem skipMark?_of_not_stands {mark : Text} (h : ¬Stands mark t) : skipMark? mark t = none := by
  by_cases hm : mark = []
  · simp [skipMark?, hm]
  · exact (skipMark?_eq_none_iff hm).mpr fun hp => h ⟨hm, hp⟩

/-- Looking for the nearer of the next opener and the next closer comes to the same as the walk. -/
theorem nestLevel_eq_scanLevel (opener closer t : Text) :
    nestLevel opener closer t = scanLevel opener closer t := by
  fun_induction scanLevel opener closer t with
  | case1 => exact nestLevel_nil
  | case2 c t ho ih => rw [nestLevel_opener (skipMark?_of_stands ho), ih]
  | case3 c t ho hc ih =>
    rw [nestLevel_closer (skipMark?_of_not_stands ho) (skipMark?_of_stands hc), ih]
  | case4 c t ho hc ih =>
    rw [nestLevel_other (skipMark?_of_not_stands ho) (skipMark?_of_not_stands hc), ih]

/-- Two marks of which neither starts the other never stand at the same position. -/
theorem not_stands_of_stands {a b : Text} (hab : ¬Stands a b) (hba : ¬Stands b a)
    (h : Stands a t) : ¬Stands b t := by
  intro hb
  rcases List.prefix_or_prefix_of_prefix h.2 hb.2 with hp | hp
  · exact hab ⟨h.1, hp⟩
  · exact hba ⟨hb.1, hp⟩

theorem scanLevel_swap (hoc : ¬Stands opener closer) (hco : ¬Stands closer opener) (t : Text) :
    scanLevel closer opener t = -scanLevel opener closer t := by
  fun_induction scanLevel opener closer t with
  | case1 => simp [scanLevel]
  | case2 c t ho ih =>
    have hc : ¬Stands closer (c :: t) := not_stands_of_stands hoc hco ho
    rw [scanLevel, if_neg hc, if_pos ho, ih]
    omega
  | case3 c t ho hc ih =>
    rw [scanLevel, if_pos hc, ih]
    omega
  | case4 c t ho hc ih => rw [scanLevel, if_neg hc, if_neg ho, ih]

/-- The level is that of the walk, for any two delimiters, whether empty, equal or overlapping. So
it is a difference of two counts, and adds up over texts, for two distinct characters; and swapping
two delimiters of which neither starts the other negates it. -/
theorem nestLevel_follows_walk :
    (∀ opener closer t : Text, nestLevel opener closer t = scanLevel opener closer t) ∧
    (∀ a b : Char, a ≠ b → ∀ s t : Text,
      nestLevel [a] [b] t = (t.count a : Int) - t.count b ∧
      nestLevel [a] [b] (s ++ t) = nestLevel [a] [b] s + nestLevel [a] [b] t) ∧
    (∀ opener closer : Text,
      ¬Stands opener closer → ¬Stands closer opener → ∀ t : Text,
      nestLevel closer opener t = -nestLevel opener closer t) := by
  refine ⟨nestLevel_eq_scanLevel, ?_, ?_⟩
  · intro a b hab s t
    refine ⟨nestLevel_eq_count hab t, ?_⟩
    rw [nestLevel_eq_count hab, nestLevel_eq_count hab, nestLevel_eq_count hab, List.count_append,
      List.count_append]
    omega
  · intro opener closer hoc hco t
    rw [nestLevel_eq_scanLevel, nestLevel_eq_scanLevel, scanLevel_swap hoc hco]

theorem nestLevel_follows_walk_overlapping :
    nestLevel ['<'] ['>'] ['<', 'a', '<', '>'] = 1 ∧
    nestLevel ['<'] ['>'] (['>', '>'] ++ ['<', 'a', '<', '>']) =
      nestLevel ['<'] ['>'] ['>', '>'] + nestLevel ['<'] ['>'] ['<', 'a', '<', '>'] ∧
    ¬Stands ['a', 'b', 'a'] ['b', 'a'] ∧ ¬Stands ['b', 'a'] ['a', 'b', 'a'] ∧
    nestLevel ['b', 'a'] ['a', 'b', 'a'] ['b', 'a', 'b', 'a', 'b', 'a'] =
      -nestLevel ['a', 'b', 'a'] ['b', 'a'] ['b', 'a', 'b', 'a', 'b', 'a'] := by
  obtain ⟨-, hcount, hswap⟩ := nestLevel_follows_walk
  obtain ⟨hlevel, hadd⟩ := hcount '<' '>' (by decide) ['>', '>'] ['<', 'a', '<', '>']
  exact ⟨hlevel, hadd, by decide, by decide, hswap _ _ (by decide) (by decide) _⟩

end IndentMarkup.Text
