import IndentMarkup.Compile.Error

/-! Unquoted attributes: pairs `name=value` parted by blanks, up to the inline content. -/
namespace IndentMarkup

structure Attribute where
  name : Text
  value : Text
deriving DecidableEq, Repr

namespace Attribute

/-- An attribute as it stands in an opening tag, with the space before it. -/
def render (a : Attribute) : Text :=
  ' ' :: a.name ++ '=' :: '"' :: a.value ++ ['"']

/-- What stands after an equals sign. -/
inductive ValueScan
  /-- A value, and what follows it. -/
  | value (value rest : Text)
  /-- The next equals sign comes before any blank, so it is open where the value ends. -/
  | ambiguous
  /-- A placeholder without its closer. -/
  | unclosed (placeholder : Placeholder)
deriving DecidableEq, Repr

/-- The text up to its last space or tab, with it, and the word behind. -/
def splitAfterLastBlank? : Text → Option (Text × Text)
  | [] => none
  | c :: t =>
    match splitAfterLastBlank? t with
    | some (front, word) => some (c :: front, word)
    | none => if Text.isInlineBlank c then some ([c], t) else none

/-- Reads a value. A placeholder ends at its closer, the last value of the list at the inline
content, any other at the last blank before the next equals sign. -/
def scanValue (t : Text) : ValueScan :=
  match Placeholder.start? t with
  | some (p, inner) =>
    match Text.cut? p.closer inner with
    | none => .unclosed p
    | some (body, rest) => .value (p.opener ++ body ++ p.closer) rest
  | none =>
    match Text.cut? ['='] t with
    | none => .value (t.takeWhile (· != '<')) (t.dropWhile (· != '<'))
    | some (before, after) =>
      match splitAfterLastBlank? before with
      | none => .ambiguous
      | some (value, word) => .value value (word ++ '=' :: after)

theorem eq_of_splitAfterLastBlank? {t front word : Text}
    (h : splitAfterLastBlank? t = some (front, word)) : t = front ++ word := by
  induction t generalizing front with
  | nil => simp [splitAfterLastBlank?] at h
  | cons c t ih =>
    rw [splitAfterLastBlank?] at h
    split at h
    · next hs =>
      obtain ⟨rfl, rfl⟩ := by simpa using h
      simpa using ih hs
    · split at h
      · obtain ⟨rfl, rfl⟩ := by simpa using h
        rfl
      · simp at h

/-- A value and what follows it make up the whole text. -/
theorem eq_of_scanValue {t value rest : Text} (h : scanValue t = .value value rest) :
    t = value ++ rest := by
  unfold scanValue at h
  split at h
  · next p inner hp =>
    rw [Placeholder.eq_of_start? hp]
    split at h
    · simp at h
    · next hc =>
      obtain ⟨rfl, rfl⟩ := by simpa using h
      simp [(Text.eq_of_cut? hc).2]
  · split at h
    · obtain ⟨rfl, rfl⟩ := by simpa using h
      simp
    · next hc =>
      split at h
      · simp at h
      · next hs =>
        obtain ⟨rfl, rfl⟩ := by simpa using h
        simp [(Text.eq_of_cut? hc).2, eq_of_splitAfterLastBlank? hs]

/-- The attributes at the front of `t` and the text left after them. Names are trimmed, values only
at their end. -/
def scan (t : Text) : Except Placeholder (List Attribute × Text) :=
  match _hc : Text.cut? ['='] t with
  | none => .ok ([], t)
  | some (name, after) =>
    if name.contains '<' then .ok ([], t)
    else match _hv : scanValue after with
      | .ambiguous => .ok ([], t)
      | .unclosed p => .error p
      | .value value rest => do
        let (attributes, rest) ← scan rest
        return (⟨name.trim, value.trimEnd⟩ :: attributes, rest)
termination_by t.length
decreasing_by
  have := Text.length_of_cut? _hc
  have := congrArg List.length (eq_of_scanValue _hv)
  simp only [List.length_append] at this
  omega

/-- The attributes that follow a selector on a line, and the trimmed text left after them. -/
def parse (line : Nat) (t : Text) : Except CompileError (List Attribute × Text) :=
  match scan t with
  | .error p => .error (.unclosedPlaceholder p line)
  | .ok (attributes, rest) => .ok (attributes, rest.trim)

end Attribute
end IndentMarkup
