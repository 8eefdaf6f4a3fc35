import Requalify.Text.Offset

/-!
Patterns for whole paths. A path is matched byte by byte, and wildcards match the slash too. `**` stands
for any number of directories where a slash or the end of the pattern is next to it. Matching keeps all
ends that the pattern read so far can have, as the rests of the path behind them.
-/

namespace Requalify

inductive GlobToken where
  | literal (c : Char)
  | anyByte
  | anyText
  /-- Directories at the beginning, with their slashes. -/
  | leadingTree
  /-- A slash and all that follows. -/
  | trailingTree
  /-- A slash, or directories between two slashes. -/
  | innerTree
  | byteClass (negated : Bool) (ranges : List (Char × Char))
  | choice (branches : List (List GlobToken))
  deriving Inhabited

structure Glob where
  tokens : List GlobToken
  deriving Inhabited

namespace Glob

/-- What is left of a path. -/
abbrev Rest := List UInt8

def slash : UInt8 := 47

def charBytes (c : Char) : List UInt8 :=
  Text.bytes (String.singleton c)

def tails : Rest → List Rest
  | [] => [[]]
  | byte :: rest => (byte :: rest) :: tails rest

/-- The rests behind each slash. -/
def afterSlashes : Rest → List Rest
  | [] => []
  | byte :: rest => if byte = slash then rest :: afterSlashes rest else afterSlashes rest

def afterPrefix (start : List UInt8) (rest : Rest) : Option Rest :=
  if start.isPrefixOf rest then some (rest.drop start.length) else none

/-- A range of characters holds the bytes of both ends, and the bytes from the last one of the lower end
to the first one of the upper end. -/
def rangeHolds (byte : UInt8) (range : Char × Char) : Bool :=
  let low := charBytes range.1
  let high := charBytes range.2
  low.contains byte || high.contains byte ||
    (range.1 != range.2 && low.getLast?.any (· ≤ byte) && high.head?.any (byte ≤ ·))

mutual

/-- A token that stands for nothing at all: a choice without any branch that counts. -/
def isVoid : GlobToken → Bool
  | .choice branches => areVoid branches
  | _ => false

def isVoidBranch : List GlobToken → Bool
  | [] => true
  | token :: rest => isVoid token && isVoidBranch rest

def areVoid : List (List GlobToken) → Bool
  | [] => true
  | branch :: rest => isVoidBranch branch && areVoid rest

end

mutual

/-- The rests behind a token, from any of the given rests. Empty branches of a choice do not count. -/
def ends : GlobToken → List Rest → List Rest
  | .literal c, rests => rests.filterMap (afterPrefix (charBytes c))
  | .anyByte, rests => rests.filterMap (·.tail?)
  | .anyText, rests => (rests.flatMap tails).eraseDups
  | .leadingTree, rests => (rests ++ rests.flatMap afterSlashes).eraseDups
  | .trailingTree, rests => ((rests.filterMap (afterPrefix [slash])).flatMap tails).eraseDups
  | .innerTree, rests =>
      let inside := rests.filterMap (afterPrefix [slash])
      (inside ++ inside.flatMap afterSlashes).eraseDups
  | .byteClass negated ranges, rests =>
      rests.filterMap fun rest =>
        match rest with
        | byte :: rest => if ranges.any (rangeHolds byte) != negated then some rest else none
        | [] => none
  | .choice branches, rests =>
      if areVoid branches then rests else (endsOfAny branches rests).eraseDups

def endsOf : List GlobToken → List Rest → List Rest
  | [], rests => rests
  | token :: more, rests => endsOf more (ends token rests)

def endsOfAny : List (List GlobToken) → List Rest → List Rest
  | [], _ => []
  | branch :: more, rests =>
      (if isVoidBranch branch then [] else endsOf branch rests) ++ endsOfAny more rests

end

/-- The pattern matches the whole path; `**` alone matches every path. -/
def accepts (glob : Glob) (path : String) : Bool :=
  match glob.tokens with
  | [.leadingTree] => true
  | tokens => (endsOf tokens [Text.bytes path]).contains []

end Glob

end Requalify
