import Mathlib.Data.List.Infix
import IndentMarkup.Json.Comment

/-! Text that is made of plain text, string literals and comments loses its comments and nothing
else. What is left of any text has no comments, and the same string literals. -/
namespace IndentMarkup.Json

/-- A character of a string literal, as it is written. -/
inductive Letter
  | plain (c : Char) (h : c ≠ '"' ∧ c ≠ '\\')
  | escaped (c : Char)

def Letter.text : Letter → Text
  | .plain c _ => [c]
  | .escaped c => ['\\', c]

/-- A part of a text that is read in one go. A line comment includes the line feed that ends it. -/
inductive Segment
  | plain (t : Text) (h : '"' ∉ t ∧ '/' ∉ t)
  | literal (letters : List Letter)
  | lineComment (t : Text) (h : '\n' ∉ t)
  | blockComment (t : Text) (h : ¬['*', '/'] <:+: t)

namespace Segment

/-- A segment as it is written. -/
def text : Segment → Text
  | .plain t _ => t
  | .literal letters => '"' :: (letters.flatMap Letter.text ++ ['"'])
  | .lineComment t _ => '/' :: '/' :: (t ++ ['\n'])
  | .blockComment t _ => '/' :: '*' :: (t ++ ['*', '/'])

/-- What is left of a segment without comments. -/
def kept : Segment → Text
  | .plain t _ => t
  | .literal letters => '"' :: (letters.flatMap Letter.text ++ ['"'])
  | .lineComment _ _ => ['\n']
  | .blockComment _ _ => []

end Segment

theorem stripFrom_plain_append {t : Text} (h : '"' ∉ t ∧ '/' ∉ t) (rest : Text) :
    stripFrom .plain (t ++ rest) = t ++ stripFrom .plain rest := by
  induction t with
  | nil => rfl
  | cons c t ih =>
    simp only [List.mem_cons, not_or] at h
    obtain ⟨⟨hq, htq⟩, hs, hts⟩ := h
    have hc : stripFrom .plain (c :: (t ++ rest)) = c :: stripFrom .plain (t ++ rest) := by
      simp [stripFrom, Ne.symm hq, Ne.symm hs]
    rw [List.cons_append, hc, ih ⟨htq, hts⟩, List.cons_append]

/-- A letter does not end the literal it stands in. -/
theorem stripFrom_letter_append (l : Letter) (rest : Text) :
    stripFrom .string (l.text ++ rest) = l.text ++ stripFrom .string rest := by
  cases l with
  | plain c h =>
    obtain ⟨hq, hb⟩ := h
    simp [Letter.text, stripFrom, hq, hb]
  | escaped c => rfl

theorem stripFrom_letters_append (letters : List Letter) (rest : Text) :
    stripFrom .string (letters.flatMap Letter.text ++ '"' :: rest) =
      letters.flatMap Letter.text ++ '"' :: stripFrom .plain rest := by
  induction letters with
  | nil => simp [stripFrom]
  | cons l letters ih =>
    rw [List.flatMap_cons, List.append_assoc, stripFrom_letter_append, ih, List.append_assoc]

theorem stripFrom_lineComment_append {t : Text} (h : '\n' ∉ t) (rest : Text) :
    stripFrom .lineComment (t ++ '\n' :: rest) = '\n' :: stripFrom .plain rest := by
  induction t with
  | nil => rfl
  | cons c t ih =>
    simp only [List.mem_cons, not_or] at h
    rw [List.cons_append, stripFrom, if_neg (Ne.symm h.1), ih h.2]

/-- A block comment goes on up to the first mark that ends it, whatever it holds before. -/
theorem stripFrom_blockComment_append {t : Text} (h : ¬['*', '/'] <:+: t) (rest : Text) :
    stripFrom .blockComment (t ++ '*' :: '/' :: rest) = stripFrom .plain rest := by
  induction t with
  | nil => rfl
  | cons c t ih =>
    rw [List.infix_cons_iff, not_or] at h
    -- the slash of the mark stands behind a star, so `c` and the character behind it are no mark
    have hc : ∀ u, c = '*' → t ++ '*' :: '/' :: rest = '/' :: u → False := by
      rintro u rfl hu
      cases t with
      | nil => simp at hu
      | cons d t =>
        obtain ⟨rfl, -⟩ : d = '/' ∧ _ := by simpa using hu
        exact h.1 ⟨t, rfl⟩
    have hskip : stripFrom .blockComment (c :: (t ++ '*' :: '/' :: rest)) =
        stripFrom .blockComment (t ++ '*' :: '/' :: rest) := by
      rw [stripFrom]
      exact hc
    rw [List.cons_append, hskip, ih h.2]

/-- A segment is read to its end. -/
theorem stripFrom_segment_append (s : Segment) (rest : Text) :
    stripFrom .plain (s.text ++ rest) = s.kept ++ stripFrom .plain rest := by
  cases s with
  | plain t h => exact stripFrom_plain_append h rest
  | literal letters =>
    have hopen : stripFrom .plain ('"' :: (letters.flatMap Letter.text ++ '"' :: rest)) =
        '"' :: stripFrom .string (letters.flatMap Letter.text ++ '"' :: rest) := by
      simp [stripFrom]
    simpa [Segment.text, Segment.kept, stripFrom_letters_append] using hopen
  | lineComment t h =>
    simpa [Segment.text, Segment.kept, stripFrom] using stripFrom_lineComment_append h rest
  | blockComment t h =>
    simpa [Segment.text, Segment.kept, stripFrom] using stripFrom_blockComment_append h rest

/-- Taking the comments out of a text leaves plain text and string literals as they are, a line feed
for each line comment, and nothing for a block comment. -/
theorem stripComments_segments (segments : List Segment) :
    stripComments (segments.flatMap Segment.text) = segments.flatMap Segment.kept := by
  induction segments with
  | nil => rfl
  | cons s segments ih =>
    rw [List.flatMap_cons, List.flatMap_cons, ← ih]
    exact stripFrom_segment_append s _

-- marks in a literal start no comment, and quotes in a comment start no literal
example : stripComments "[\"//\\\"/*\", /*\"/**/ 1] // \"\n".toList =
    "[\"//\\\"/*\",  1] \n".toList := by decide

/-! What is left of a text, read again. -/

/-- The region in which a reader stands who sees only what is left of the text so far. -/
def Region.stripped : Region → Region
  | .string => .string
  | .plain | .lineComment | .blockComment => .plain

/-- The characters of a text that stand in no comment, each with the region in which it is read. -/
def keptFrom : Region → Text → List (Region × Char)
  | _, [] => []
  | .plain, '/' :: '/' :: t => keptFrom .lineComment t
  | .plain, '/' :: '*' :: t => keptFrom .blockComment t
  | .plain, c :: t => (.plain, c) :: keptFrom (if c = '"' then .string else .plain) t
  | .string, '\\' :: c :: t => (.string, '\\') :: (.string, c) :: keptFrom .string t
  | .string, c :: t => (.string, c) :: keptFrom (if c = '"' then .plain else .string) t
  | .lineComment, c :: t =>
    if c = '\n' then (.plain, '\n') :: keptFrom .plain t else keptFrom .lineComment t
  | .blockComment, '*' :: '/' :: t => keptFrom .plain t
  | .blockComment, _ :: t => keptFrom .blockComment t

theorem map_keptFrom (r : Region) (t : Text) : (keptFrom r t).map Prod.snd = stripFrom r t := by
  fun_induction stripFrom r t <;> simp_all [keptFrom]

theorem head?_stripFrom_plain {t : Text} (h : t.head? ≠ some '/') :
    (stripFrom .plain t).head? = t.head? := by
  cases t with
  | nil => rfl
  | cons c t =>
    have hc : c ≠ '/' := by simpa using h
    rw [stripFrom] <;> simp [hc]

/-- Each character that is left is read in the region it was read in before. -/
theorem keptFrom_stripFrom (r : Region) (t : Text) :
    keptFrom r.stripped (stripFrom r t) = keptFrom r t := by
  fun_induction stripFrom r t with
  | case1 r => cases r <;> rfl
  | case2 t ih => rwa [keptFrom]
  | case3 t ih => rwa [keptFrom]
  | case4 c t hslash hstar ih =>
    by_cases hq : c = '"'
    · subst hq
      simpa [keptFrom, Region.stripped] using ih
    -- a slash that is left has the same character behind it as before, so it starts no comment
    have hbehind : ∀ d u, c = '/' → stripFrom .plain t = d :: u → ∃ v, t = d :: v := by
      intro d u hc hu
      have hno : t.head? ≠ some '/' := by
        intro h
        obtain ⟨v, hv⟩ := List.head?_eq_some_iff.mp h
        exact hslash v hc hv
      rw [← List.head?_eq_some_iff, ← head?_stripFrom_plain hno, hu, List.head?_cons]
    have hleft : keptFrom .plain (c :: stripFrom .plain t) =
        (.plain, c) :: keptFrom .plain (stripFrom .plain t) := by
      rw [keptFrom, if_neg hq]
      · exact fun u hc hu => (hbehind _ u hc hu).elim (hslash · hc)
      · exact fun u hc hu => (hbehind _ u hc hu).elim (hstar · hc)
    have hbefore : keptFrom .plain (c :: t) = (.plain, c) :: keptFrom .plain t := by
      rw [keptFrom, if_neg hq]
      · exact hslash
      · exact hstar
    rw [if_neg hq] at ih ⊢
    rw [Region.stripped, hleft, hbefore]
    exact congrArg _ ih
  | case5 c t ih => simpa [keptFrom, Region.stripped] using ih
  | case6 c t h ih =>
    by_cases hb : c = '\\'
    · subst hb
      cases t with
      | nil => rfl
      | cons d t => exact (h d t rfl rfl).elim
    · by_cases hq : c = '"' <;> simpa [keptFrom, Region.stripped, hb, hq] using ih
  | case7 t ih => simpa [keptFrom, Region.stripped] using ih
  | case8 c t h ih => simpa [keptFrom, Region.stripped, h] using ih
  | case9 t ih => rwa [keptFrom]
  | case10 c t h ih =>
    rw [ih, keptFrom]
    exact h

/-- Taking comments out a second time changes nothing: no comment comes up where one was taken out,
and every character is read as plain text or as part of a literal like before. -/
theorem stripComments_idempotent (t : Text) :
    stripComments (stripComments t) = stripComments t ∧
      keptFrom .plain (stripComments t) = keptFrom .plain t := by
  have hkept : keptFrom .plain (stripComments t) = keptFrom .plain t := keptFrom_stripFrom .plain t
  refine ⟨?_, hkept⟩
  calc stripComments (stripComments t)
      = (keptFrom .plain (stripComments t)).map Prod.snd := (map_keptFrom .plain _).symm
    _ = (keptFrom .plain t).map Prod.snd := by rw [hkept]
    _ = stripComments t := map_keptFrom .plain t

end IndentMarkup.Json
