import IndentMarkup.Files.Pattern

/-! How deep a pattern nests. Sequences, choices, groups, repetitions and classes each count once,
where they stand inside each other. -/
namespace IndentMarkup.Pattern

/-- The deepest nesting that a pattern may have. -/
def maxDepth : Nat := 250

/-- What tokens come to in the sequence in which they stand: how many items, and how deep these
nest. -/
structure Extent where
  items : Nat
  depth : Nat
deriving DecidableEq, Repr

namespace Extent

def append (e f : Extent) : Extent :=
  ⟨e.items + f.items, max e.depth f.depth⟩

/-- The depth of a branch of a group, which is a sequence unless it is a single item. -/
def branchDepth (e : Extent) : Nat :=
  if 1 < e.items then e.depth + 1 else e.depth

/-- A group, given the number of its branches and the depth of the deepest one. With more than one
branch it holds a choice, and with none it is nothing. -/
def group (branches depth : Nat) : Extent :=
  if branches = 0 then ⟨0, 0⟩ else ⟨1, if 1 < branches then depth + 2 else depth + 1⟩

end Extent

mutual

/-- A doubled star between slashes or at the front is a group with a choice, and in it a sequence
with a repetition. A class of several ranges has their union in it. -/
def Token.extent : Token → Extent
  | .literal c => ⟨(Text.utf8 [c]).length, 0⟩
  | .any => ⟨1, 0⟩
  | .star => ⟨1, 1⟩
  | .leading => ⟨1, 4⟩
  | .trailing => ⟨2, 1⟩
  | .between => ⟨1, 4⟩
  | .byteIn set => ⟨1, if 1 < set.ranges.length then 2 else 1⟩
  | .alternatives branches =>
    let (count, depth) := branchExtents branches
    .group count depth

def extentOf : List Token → Extent
  | [] => ⟨0, 0⟩
  | t :: tokens => t.extent.append (extentOf tokens)

/-- How many branches have any items, and how deep these nest. -/
def branchExtents : List (List Token) → Nat × Nat
  | [] => (0, 0)
  | b :: branches =>
    let e := extentOf b
    let (count, depth) := branchExtents branches
    if e.items = 0 then (count, depth) else (count + 1, max e.branchDepth depth)

end

/-- The whole pattern is a sequence in any case. -/
def depth (p : Pattern) : Nat :=
  (extentOf p.tokens).depth + 1

def isTooDeep (p : Pattern) : Bool :=
  maxDepth < p.depth

end IndentMarkup.Pattern
