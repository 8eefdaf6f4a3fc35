import Requalify.Patch

/-!
Edits as a line diff without context lines. Each patch touches a block of whole lines; blocks that
share a line are one hunk, which shows its lines before and after the edits of that block.
-/

namespace Requalify.LineDiff

/-- A range of whole lines and the patches that touch it. -/
structure Block where
  start : Nat
  stop : Nat
  patches : List Patch

/-- The lines that one patch touches. -/
def blockOf (content : List UInt8) (patch : Patch) : Block :=
  let offset := min patch.offset content.length
  let last := if 0 < patch.length then offset + patch.length - 1 else offset
  { start := Text.lineStart content offset
    stop := if 0 < patch.length || offset < content.length then Text.lineEnd content last
      else content.length
    patches := [patch] }

/-- Join a block to the nearest earlier one if they share a line; `blocks` is nearest first. -/
def addBlock (blocks : List Block) (block : Block) : List Block :=
  match blocks with
  | previous :: rest =>
      if block.start < previous.stop then
        { start := previous.start
          stop := max previous.stop block.stop
          patches := previous.patches ++ block.patches } :: rest
      else block :: blocks
  | [] => [block]

def blocks (content : List UInt8) (patches : List Patch) : List Block :=
  let ascending := patches.mergeSort fun left right => left.offset ≤ right.offset
  ((ascending.map (blockOf content)).foldl addBlock []).reverse

/-- Lines before and after the edits of a block. An empty range is named by the line before it. -/
structure Hunk where
  oldStart : Nat
  oldCount : Nat
  newStart : Nat
  newCount : Nat
  old : List Char
  new : List Char
  deriving DecidableEq

def endsOpen (text : List Char) : Bool :=
  match text.getLast? with
  | some c => c != '\n'
  | none => false

/-- Lines of a text; a last line without a terminator counts too. -/
def lineCount (text : List Char) : Nat :=
  text.count '\n' + if endsOpen text then 1 else 0

/-- Apply the patches of a block to its lines, the last patch first. -/
def editedLines (block : Block) (old : List Char) : List Char :=
  block.patches.reverse.foldl
    (fun lines patch =>
      let start := patch.offset - block.start
      Text.replace lines (Span.between start (start + patch.length)) patch.text.toList)
    old

def linesOf (text : List Char) (block : Block) : List Char :=
  (Text.slice? text (Span.between block.start block.stop)).getD []

/-- The hunk of a block, where the hunks before it have added `growth` lines. -/
def hunkOf (text : List Char) (growth : Int) (block : Block) : Hunk :=
  let old := linesOf text block
  let new := editedLines block old
  let before := (Text.slice? text (Span.between 0 block.start)).getD []
  let first := before.count '\n' + 1
  let newFirst := (first + growth).toNat
  { oldStart := if lineCount old = 0 then first - 1 else first
    oldCount := lineCount old
    newStart := if lineCount new = 0 then newFirst - 1 else newFirst
    newCount := lineCount new
    old := old
    new := new }

def hunksFrom (text : List Char) (growth : Int) : List Block → List Hunk
  | [] => []
  | block :: rest =>
      let hunk := hunkOf text growth block
      hunk :: hunksFrom text (growth + hunk.newCount - hunk.oldCount) rest

def hunks (text : String) (patches : List Patch) : List Hunk :=
  hunksFrom text.toList 0 (blocks (Text.bytes text) patches)

/-- The lines of a text with their terminators. -/
def lines : List Char → List (List Char)
  | [] => []
  | '\n' :: rest => ['\n'] :: lines rest
  | c :: rest =>
      match rest, lines rest with
      | '\n' :: _, line :: more => (c :: line) :: more
      | _ :: _, line :: more => (c :: line) :: more
      | _, more => [c] :: more

def markedLines (mark : Char) (text : List Char) : List Char :=
  let marked := (lines text).flatMap (mark :: ·)
  if endsOpen text then marked ++ "\n\\ No newline at end of file\n".toList else marked

def Hunk.render (hunk : Hunk) : List Char :=
  s!"@@ -{hunk.oldStart},{hunk.oldCount} +{hunk.newStart},{hunk.newCount} @@\n".toList ++
    markedLines '-' hunk.old ++ markedLines '+' hunk.new

/-- The diff of applying `patches` to the text of the file `path`; empty without patches. -/
def render (path text : String) (patches : List Patch) : String :=
  if patches.isEmpty then ""
  else
    s!"--- a/{path}\n+++ b/{path}\n" ++ String.ofList ((hunks text patches).flatMap Hunk.render)

end Requalify.LineDiff
