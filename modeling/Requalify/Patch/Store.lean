import Requalify.Patch

/-!
The store of pending edits. It keeps the patches of each file in order of offset and accepts a patch
only if every accepted patch can still be applied: equal edits at one offset count once, unequal ones
conflict, and so do edits whose ranges overlap. A refused patch leaves the store as it was.
-/

namespace Requalify

inductive Conflict where
  | sameOffset (file : String) (offset : Nat) (existing incoming : String)
  | overlap (file : String) (existing incoming : Span)
  deriving DecidableEq

def Conflict.message : Conflict → String
  | sameOffset file offset existing incoming =>
      s!"conflicting patches at {file}:{offset}: {Text.quoted existing} vs {Text.quoted incoming}"
  | overlap file existing incoming =>
      s!"overlapping patches in {file}: {existing.text} and {incoming.text}"

inductive AddOutcome where
  | inserted
  | duplicate
  deriving DecidableEq, Inhabited

/-- The patches of one file in order of offset, and the digest of the text they were made for. -/
structure PatchSet where
  path : FilePath
  relativePath : String
  digest : String
  patches : List Patch
  deriving DecidableEq

namespace PatchSet

def ofSource (source : Source) : PatchSet where
  path := source.path
  relativePath := source.relativePath
  digest := source.digest
  patches := []

def before (set : PatchSet) (offset : Nat) : List Patch :=
  set.patches.filter (·.offset < offset)

def after (set : PatchSet) (offset : Nat) : List Patch :=
  set.patches.filter (offset < ·.offset)

/-- The nearest patches on both sides of an offset. -/
def neighbours (set : PatchSet) (offset : Nat) : List Patch :=
  (set.before offset).getLast?.toList ++ (set.after offset).head?.toList

def add (set : PatchSet) (patch : Patch) : Except Conflict (PatchSet × AddOutcome) :=
  match set.patches.find? (·.offset == patch.offset) with
  | some existing =>
      if existing.SameEdit patch then .ok (set, .duplicate)
      else .error (.sameOffset set.relativePath patch.offset existing.text patch.text)
  | none =>
      match (set.neighbours patch.offset).find? fun other => other.span.Overlaps patch.span with
      | some existing => .error (.overlap set.relativePath existing.span patch.span)
      | none =>
          .ok ({ set with patches := set.before patch.offset ++ patch :: set.after patch.offset },
            .inserted)

end PatchSet

structure Store where
  /-- One set per file, in the order in which the files were first edited. -/
  sets : List PatchSet
  deriving DecidableEq, Inhabited

namespace Store

def empty : Store := ⟨[]⟩

def addTo (source : Source) (patch : Patch) :
    List PatchSet → Except Conflict (List PatchSet × AddOutcome)
  | [] => ((PatchSet.ofSource source).add patch).map fun (set, outcome) => ([set], outcome)
  | set :: rest =>
      if set.path.SameEntry source.path then
        (set.add patch).map fun (set, outcome) => (set :: rest, outcome)
      else
        (addTo source patch rest).map fun (rest, outcome) => (set :: rest, outcome)

def add (store : Store) (source : Source) (patch : Patch) : Except Conflict (Store × AddOutcome) :=
  (addTo source patch store.sets).map fun (sets, outcome) => (⟨sets⟩, outcome)

def size (store : Store) : Nat :=
  (store.sets.flatMap (·.patches)).length

/-- The recorded patches as sets in order of relative path, without empty ones. -/
def toSets (store : Store) : List PatchSet :=
  (store.sets.filter (!·.patches.isEmpty)).mergeSort fun left right =>
    left.relativePath ≤ right.relativePath

/-- Take the recorded patches out, which leaves nothing recorded. -/
def take (store : Store) : List PatchSet × Store :=
  (store.toSets, empty)

end Store

end Requalify
