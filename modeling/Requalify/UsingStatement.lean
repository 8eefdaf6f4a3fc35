import Requalify.Text.Blank
import Requalify.Text.Offset

/-!
Using-statements as they are written: where one begins, where the path starts that it names, and where
its declaration stops. The semicolon is not part of the declaration; `UsingStatement.extent?` finds it
behind blanks and comments.
-/

namespace Requalify

inductive UsingKind where
  /-- All names of a namespace become visible. -/
  | directive
  /-- One name becomes visible. -/
  | declaration
  /-- A namespace gets another name. -/
  | namespaceAlias
  deriving DecidableEq, Inhabited

structure UsingStatement where
  kind : UsingKind
  /-- The offset of the first keyword. -/
  start : Nat
  /-- The offset of the path that is named, with its qualifier. -/
  targetStart : Nat
  /-- The offset after the last token in front of the semicolon. -/
  stop : Nat
  deriving DecidableEq, Inhabited

/-- The whole statement with its semicolon, and the path that it names. -/
structure UsingExtent where
  statement : Span
  target : Span
  deriving DecidableEq

namespace UsingStatement

/-- The rest of a block comment whose opening has been read. -/
def afterComment : List Char → List Char
  | '*' :: '/' :: rest => rest
  | _ :: rest => afterComment rest
  | [] => []

theorem afterComment_length (text : List Char) : (afterComment text).length ≤ text.length := by
  fun_induction afterComment text with
  | case1 rest => simp; omega
  | case2 c rest _ ih => simp; omega
  | case3 => simp

/-- What follows the blanks and comments at the beginning of `text`. -/
def afterBlanks : List Char → List Char
  | '/' :: '/' :: rest => afterBlanks (rest.dropWhile (· != '\n'))
  | '/' :: '*' :: rest => afterBlanks (afterComment rest)
  | c :: rest => if Text.isAsciiBlank c then afterBlanks rest else c :: rest
  | [] => []
termination_by text => text.length
decreasing_by
  all_goals simp_wf
  · have bound := (List.dropWhile_sublist (fun c : Char => c != '\n') (l := rest)).length_le
    omega
  · have bound := afterComment_length rest
    omega

/-- The statement with its semicolon, if a semicolon is the next thing after the declaration. -/
def extent? (text : String) (statement : UsingStatement) : Option UsingExtent := do
  let size := Text.byteLength text.toList
  let (_, after) ← Text.splitAt? text.toList (min statement.stop size)
  match afterBlanks after with
  | ';' :: rest =>
      return {
        statement := Span.between statement.start (size - Text.byteLength rest)
        target := Span.between statement.targetStart statement.stop }
  | _ => none

end UsingStatement

end Requalify
