import Requalify.Text.Offset

/-!
Removing a statement without leaving blanks behind. The two ends grow on their own: the start back to
the beginning of its line if only spaces and tabs stand there, and the end over spaces and tabs and one
line terminator if nothing else follows on its line. Neither end passes other code.
-/

namespace Requalify.Text

def isHorizontal (c : Char) : Bool :=
  c == ' ' || c == '\t'

/-- How many characters before the statement go with it; `before` is nearest first. -/
def leadingBlanks (before : List Char) : Nat :=
  let blanks := before.takeWhile isHorizontal
  match before.drop blanks.length with
  | [] => blanks.length
  | c :: _ => if c = '\n' then blanks.length else 0

/-- How many characters after the statement go with it. -/
def trailingBlanks (after : List Char) : Nat :=
  let blanks := after.takeWhile isHorizontal
  match after.drop blanks.length with
  | [] => blanks.length
  | '\n' :: _ => blanks.length + 1
  | '\r' :: '\n' :: _ => blanks.length + 2
  | _ => 0

/-- The span to remove so that `statement` goes without a trace of its own. -/
def expandRemoval (text : List Char) (statement : Span) : Span :=
  let size := byteLength text
  let first := min statement.start size
  let last := max first (min statement.stop size)
  let lead := match splitAt? text first with
    | some (before, _) => leadingBlanks before.reverse
    | none => 0
  let trail := match splitAt? text last with
    | some (_, after) => trailingBlanks after
    | none => 0
  Span.between (first - lead) (last + trail)

end Requalify.Text
