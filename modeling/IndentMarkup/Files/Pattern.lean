import IndentMarkup.Files.Path
import IndentMarkup.Text.Bytes

/-! Patterns for paths, as they are written: `?`, `*`, `**`, character classes and alternatives.
Only `**` gives slashes a meaning. -/
namespace IndentMarkup

namespace Pattern

/-- A set of bytes, given by its ranges. -/
structure ByteSet where
  negated : Bool
  ranges : List (UInt8 × UInt8)
deriving DecidableEq, Repr

def ByteSet.contains (s : ByteSet) (b : UInt8) : Bool :=
  s.ranges.any (fun (low, high) => low ≤ b && b ≤ high) != s.negated

inductive Token
  | literal (c : Char)
  /-- Any one byte. -/
  | any
  /-- Any bytes. -/
  | star
  /-- Directories at the front, or none. -/
  | leading
  /-- A slash and anything below. -/
  | trailing
  /-- A slash, or directories between two slashes. -/
  | between
  | byteIn (set : ByteSet)
  | alternatives (branches : List (List Token))
deriving Repr

/-- Where parsing stands. -/
structure Progress where
  /-- The tokens of the current branch, the last one first. -/
  tokens : List Token := []
  /-- The open groups, the innermost first: their finished branches, last first, and the tokens
  before the group, last first. -/
  groups : List (List (List Token) × List Token) := []

namespace Progress

def push (p : Progress) (t : Token) : Progress :=
  { p with tokens := t :: p.tokens }

def openGroup (p : Progress) : Progress where
  tokens := []
  groups := ([], p.tokens) :: p.groups

/-- A comma starts a new branch of the innermost group. Outside of groups it stands for itself. -/
def comma (p : Progress) : Progress :=
  match p.groups with
  | [] => p.push (.literal ',')
  | (done, outer) :: groups => ⟨[], (p.tokens.reverse :: done, outer) :: groups⟩

def closeGroup? (p : Progress) : Option Progress :=
  match p.groups with
  | [] => none
  | (done, outer) :: groups =>
    some ⟨.alternatives (p.tokens.reverse :: done).reverse :: outer, groups⟩

/-- Makes the last token take in the directories that a doubled star stands for. -/
def widen (p : Progress) (wide : Token) : Progress :=
  match p.tokens with
  | .leading :: _ | .trailing :: _ => p
  | _ :: tokens => { p with tokens := wide :: tokens }
  | [] => p.push wide

/-- A doubled star that stands for no directories is two stars. -/
def pushStars (p : Progress) : Progress :=
  (p.push .star).push .star

/-- A doubled star, given the character before it and the text after it: the new progress, and
whether it takes in the slash that follows. -/
def doubleStar (p : Progress) (previous : Option Char) (rest : Text) : Progress × Bool :=
  let slashFollows := rest.head? = some '/'
  if p.tokens.isEmpty then
    if rest.isEmpty || slashFollows then (p.push .leading, slashFollows) else (p.pushStars, false)
  else
    let inGroup := !p.groups.isEmpty
    let atPart := previous = some '/' ||
      (inGroup && (previous = some ',' || previous = some '\x7b'))
    let atEnd := rest.isEmpty || (inGroup && (rest.head? = some ',' || rest.head? = some '\x7d'))
    if !atPart then (p.pushStars, false)
    else if atEnd then (p.widen .trailing, false)
    else if slashFollows then (p.widen .between, true)
    else (p.pushStars, false)

end Progress

/-- The ranges of a class, last first, whose characters after the first are `t`. A dash between two
characters makes a range, which must ascend; one at the end stands for itself. -/
def classRanges? : List (Char × Char) → Text → Option (List (Char × Char))
  | ranges, [] => some ranges
  | ranges, ['-'] => some (('-', '-') :: ranges)
  | (low, _) :: ranges, '-' :: high :: t =>
    if low ≤ high then classRanges? ((low, high) :: ranges) t else none
  | ranges, c :: t => classRanges? ((c, c) :: ranges) t

/-- A range of characters as ranges of bytes: the last byte of the lower one and the first byte of
the higher one are the ends of a range, and their other bytes stand alone. -/
def byteRanges : Char × Char → List (UInt8 × UInt8)
  | (low, high) =>
    let single (b : UInt8) := (b, b)
    if low = high then (Text.utf8 [low]).map single
    else
      let lows := Text.utf8 [low]
      let highs := Text.utf8 [high]
      (lows.dropLast.map single) ++ (lows.getLast?.toList.zip highs.head?.toList) ++
        (highs.drop 1).map single

/-- Reads the members of a class up to its closing bracket. The first character belongs to them even
if it is a bracket. -/
def readMembers? (negated : Bool) : Text → Option (ByteSet × Text)
  | [] => none
  | first :: t =>
    match t.dropWhile (· != ']') with
    | [] => none
    | _ :: rest =>
      (classRanges? [(first, first)] (t.takeWhile (· != ']'))).map fun ranges =>
        (⟨negated, ranges.flatMap byteRanges⟩, rest)

/-- Reads a class behind its opening bracket, which `!` or `^` negates. -/
def readClass? : Text → Option (ByteSet × Text)
  | '!' :: t => readMembers? true t
  | '^' :: t => readMembers? true t
  | t => readMembers? false t

theorem length_of_readMembers? {negated : Bool} {t rest : Text} {set : ByteSet}
    (h : readMembers? negated t = some (set, rest)) : rest.length ≤ t.length := by
  unfold readMembers? at h
  split at h
  · simp at h
  · next first t =>
    split at h
    · simp at h
    · next b r hd =>
      obtain ⟨ranges, -, hr⟩ := Option.map_eq_some_iff.mp h
      obtain ⟨-, rfl⟩ := by simpa using hr
      have := (List.dropWhile_suffix (l := t) (· != ']')).length_le
      simp only [hd, List.length_cons] at this ⊢
      omega

theorem length_of_readClass? {t rest : Text} {set : ByteSet}
    (h : readClass? t = some (set, rest)) : rest.length ≤ t.length := by
  unfold readClass? at h
  split at h
  · have := length_of_readMembers? h
    simp only [List.length_cons]
    omega
  · have := length_of_readMembers? h
    simp only [List.length_cons]
    omega
  · exact length_of_readMembers? h

/-- Parses the rest of a pattern, given the character before it. -/
def parseFrom (previous : Option Char) (p : Progress) (t : Text) : Option Progress :=
  match t with
  | [] => some p
  | '?' :: t => parseFrom (some '?') (p.push .any) t
  | '*' :: '*' :: t =>
    match p.doubleStar previous t with
    | (p, true) => parseFrom (some '/') p (t.drop 1)
    | (p, false) => parseFrom (some '*') p t
  | '*' :: t => parseFrom (some '*') (p.push .star) t
  | '[' :: t =>
    match _h : readClass? t with
    | none => none
    | some (set, rest) => parseFrom (some ']') (p.push (.byteIn set)) rest
  | '\x7b' :: t => parseFrom (some '\x7b') p.openGroup t
  | '\x7d' :: t =>
    match p.closeGroup? with
    | none => none
    | some p => parseFrom (some '\x7d') p t
  | ',' :: t => parseFrom (some ',') p.comma t
  | '\\' :: c :: t => parseFrom (some c) (p.push (.literal c)) t
  | ['\\'] => none
  | c :: t => parseFrom (some c) (p.push (.literal c)) t
termination_by t.length
decreasing_by
  all_goals simp only [List.length_cons, List.length_drop]
  all_goals first | omega | exact Nat.lt_succ_of_le (length_of_readClass? _h)

end Pattern

/-- A parsed pattern. -/
structure Pattern where
  tokens : List Pattern.Token

namespace Pattern

/-- Parses a pattern. Unclosed classes and groups, descending ranges and a lone backslash at the end
make it invalid. A pattern of nothing but doubled stars matches every path. -/
def parse? (t : Text) : Option Pattern :=
  match parseFrom none {} t with
  | some ⟨[.leading], []⟩ => some ⟨[.star]⟩
  | some ⟨tokens, []⟩ => some ⟨tokens.reverse⟩
  | _ => none

mutual

/-- Whether a token stands for the empty text only, being a group of empty branches. -/
def Token.isVoid : Token → Bool
  | .alternatives branches => allVoid branches
  | _ => false

def branchVoid : List Token → Bool
  | [] => true
  | t :: tokens => t.isVoid && branchVoid tokens

def allVoid : List (List Token) → Bool
  | [] => true
  | b :: branches => branchVoid b && allVoid branches

end

end Pattern
end IndentMarkup
