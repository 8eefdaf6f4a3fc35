import Requalify.Patch

/-!
Applying patches to a text. They are taken from the end of the text to its beginning, so no offset
needs adjusting, and among patches at one offset the later one in the list comes to stand first. Every
patch is checked against the whole text: bounds first, then character boundaries, then overlap with the
patch that was applied before it.
-/

namespace Requalify

inductive SpliceError where
  | outOfBounds (offset length size : Nat)
  | splitsCharacter (offset : Nat)
  | overlap (offset : Nat)
  deriving DecidableEq

namespace Patch

/-- From the last offset to the first; patches at one offset keep their order. -/
def descending (patches : List Patch) : List Patch :=
  patches.mergeSort fun left right => right.offset ≤ left.offset

/-- What is wrong with applying `patch` to `text` before everything from `limit` on. -/
def defect? (text : List Char) (limit : Option Nat) (patch : Patch) : Option SpliceError :=
  let size := Text.byteLength text
  if size < patch.span.stop then
    some (.outOfBounds patch.offset patch.length size)
  else if !Text.isBoundary text patch.span.start || !Text.isBoundary text patch.span.stop then
    some (.splitsCharacter patch.offset)
  else if limit.any (· < patch.span.stop) then
    some (.overlap patch.offset)
  else none

/-- Apply patches in descending order. `head` is the untouched beginning of `text` and `tail` what
the rest of it has become; `limit` is the length of `head` once a patch has been applied. -/
def spliceFrom (text : List Char) (limit : Option Nat) (head tail : List Char) :
    List Patch → Except SpliceError (List Char)
  | [] => .ok (head ++ tail)
  | patch :: rest =>
      match patch.defect? text limit with
      | some error => .error error
      | none =>
          match Text.splitAt? head patch.span.start with
          | none => .error (.splitsCharacter patch.offset)
          | some (before, covered) =>
              match Text.splitAt? covered patch.length with
              | none => .error (.splitsCharacter patch.offset)
              | some (_, after) =>
                  spliceFrom text (some patch.offset) before (patch.text.toList ++ (after ++ tail)) rest

def spliceChars (text : List Char) (patches : List Patch) : Except SpliceError (List Char) :=
  spliceFrom text none text [] (descending patches)

def splice (text : String) (patches : List Patch) : Except SpliceError String :=
  (spliceChars text.toList patches).map String.ofList

end Patch

end Requalify
