import Requalify.Glob

/-!
How deeply a path pattern nests. Choices, their alternatives, repetitions, classes and sequences of more
than one item each add a level to what they hold. A pattern with too many levels is not used.
-/

namespace Requalify.Glob

/-- What a part of a pattern comes to: how many items it adds to the sequence around it, and the levels
of the deepest one. -/
structure Extent where
  items : Nat
  depth : Nat
  deriving DecidableEq

namespace Extent

def none : Extent := ⟨0, 0⟩

def append (left right : Extent) : Extent :=
  ⟨left.items + right.items, max left.depth right.depth⟩

/-- The levels of a sequence on its own. -/
def nesting (extent : Extent) : Nat :=
  if 1 < extent.items then extent.depth + 1 else extent.depth

/-- Alternatives of the given levels; without any alternative nothing is left. -/
def ofChoice (depths : List Nat) : Extent :=
  match depths with
  | [] => none
  | [depth] => ⟨1, depth + 1⟩
  | depths => ⟨1, depths.foldl max 0 + 2⟩

end Extent

/-- The items of a class. The ends of a range that meet are one item. -/
def rangeSize (range : Char × Char) : Nat :=
  if range.1 = range.2 then (charBytes range.1).length
  else (charBytes range.1).length + (charBytes range.2).length - 1

def classSize (ranges : List (Char × Char)) : Nat :=
  ranges.foldl (fun size range => size + rangeSize range) 0

mutual

def extentOf : GlobToken → Extent
  | .literal c => ⟨(charBytes c).length, 0⟩
  | .anyByte => ⟨1, 0⟩
  | .anyText => ⟨1, 1⟩
  | .leadingTree => ⟨1, 4⟩
  | .trailingTree => ⟨2, 1⟩
  | .innerTree => ⟨1, 4⟩
  | .byteClass _ ranges => ⟨1, if 1 < classSize ranges then 2 else 1⟩
  | .choice branches => Extent.ofChoice (branchDepths branches)

def extentOfAll : List GlobToken → Extent
  | [] => Extent.none
  | token :: rest => (extentOf token).append (extentOfAll rest)

/-- The levels of each branch that is not empty. -/
def branchDepths : List (List GlobToken) → List Nat
  | [] => []
  | branch :: rest =>
      let extent := extentOfAll branch
      if extent.items = 0 then branchDepths rest else extent.nesting :: branchDepths rest

end

/-- The levels of a pattern; the whole of it is a sequence between the two ends of a path. -/
def nesting (glob : Glob) : Nat :=
  (extentOfAll glob.tokens).depth + 1

def nestingLimit : Nat := 250

end Requalify.Glob
