import Requalify.Glob

/-!
Reading path patterns. `?` and `*` are wildcards, `[...]` is a class of bytes, `{a,b}` a choice, and a
backslash makes the next character an ordinary one. A pattern with an open class or choice, a brace that
closes nothing, a range that runs backwards or a backslash at its end is refused.
-/

namespace Requalify.Glob

/-- A choice that is not closed yet: its finished branches, latest first, and the tokens in front of
it. -/
structure OpenChoice where
  branches : List (List GlobToken)
  before : List GlobToken

/-- The tokens of the innermost branch, latest first, and the open choices around it. -/
structure Draft where
  tokens : List GlobToken
  outer : List OpenChoice

namespace Draft

def push (draft : Draft) (token : GlobToken) : Draft :=
  { draft with tokens := token :: draft.tokens }

def openChoice (draft : Draft) : Draft :=
  ⟨[], ⟨[], draft.tokens⟩ :: draft.outer⟩

def comma (draft : Draft) : Draft :=
  match draft.outer with
  | [] => draft.push (.literal ',')
  | choice :: outer => ⟨[], { choice with branches := draft.tokens.reverse :: choice.branches } :: outer⟩

def closeChoice? (draft : Draft) : Option Draft :=
  match draft.outer with
  | [] => none
  | choice :: outer =>
      let branches := (draft.tokens.reverse :: choice.branches).reverse
      some ⟨.choice branches :: choice.before, outer⟩

/-- Put directories in place of the last token, the slash in front of them. -/
def tree (draft : Draft) (token : GlobToken) : Draft :=
  match draft.tokens with
  | .leadingTree :: _ => draft
  | .trailingTree :: _ => draft
  | _ :: before => { draft with tokens := token :: before }
  | [] => draft.push token

def finish? (draft : Draft) : Option Glob :=
  match draft.outer with
  | [] => some ⟨draft.tokens.reverse⟩
  | _ => none

/-- The token for two asterisks, and whether it takes the slash behind them. -/
def stars (draft : Draft) (previous : Option Char) (next : Option Char) : Draft × Bool :=
  let ordinary := (draft.push .anyText).push .anyText
  let inChoice := !draft.outer.isEmpty
  if draft.tokens.isEmpty then
    match next with
    | none => (draft.push .leadingTree, false)
    | some '/' => (draft.push .leadingTree, true)
    | some _ => (ordinary, false)
  else if previous != some '/' && !(inChoice && (previous == some ',' || previous == some '\x7b')) then
    (ordinary, false)
  else
    match next with
    | none => (draft.tree .trailingTree, false)
    | some '/' => (draft.tree .innerTree, true)
    | some c =>
        if inChoice && (c == ',' || c == '\x7d') then (draft.tree .trailingTree, false)
        else (ordinary, false)

end Draft

/-- Read a class behind its opening bracket and a mark of negation, which `count` counts. `pending` tells
that the last character was a hyphen behind a character; `ranges` is latest first. The result holds the
ranges and how many characters stand behind the bracket. -/
def classFrom (count : Nat) (first pending : Bool) (ranges : List (Char × Char)) :
    List Char → Option (List (Char × Char) × Nat)
  | [] => none
  | c :: rest =>
      if c = ']' && !first then
        some ((if pending then ('-', '-') :: ranges else ranges).reverse, count + 1)
      else if pending && c != ']' then
        match ranges with
        | [] => none
        | (low, _) :: more =>
            if c < low then none else classFrom (count + 1) false false ((low, c) :: more) rest
      else if c = '-' && !first then classFrom (count + 1) false true ranges rest
      else classFrom (count + 1) false false ((c, c) :: ranges) rest

def readFrom (previous : Option Char) (draft : Draft) : List Char → Option Draft
  | [] => some draft
  | '?' :: rest => readFrom (some '?') (draft.push .anyByte) rest
  | '*' :: '*' :: '/' :: rest =>
      match draft.stars previous (some '/') with
      | (draft, true) => readFrom (some '/') draft rest
      | (draft, false) => readFrom (some '*') draft ('/' :: rest)
  | '*' :: '*' :: rest => readFrom (some '*') (draft.stars previous rest.head?).1 rest
  | '*' :: rest => readFrom (some '*') (draft.push .anyText) rest
  | '[' :: rest =>
      let negated := rest.head? == some '!' || rest.head? == some '^'
      let mark := if negated then 1 else 0
      match classFrom mark true false [] (rest.drop mark) with
      | some (ranges, count) =>
          readFrom (some ']') (draft.push (.byteClass negated ranges)) (rest.drop count)
      | none => none
  | '\x7b' :: rest => readFrom (some '\x7b') draft.openChoice rest
  | '\x7d' :: rest => draft.closeChoice?.bind fun draft => readFrom (some '\x7d') draft rest
  | ',' :: rest => readFrom (some ',') draft.comma rest
  | '\\' :: c :: rest => readFrom (some c) (draft.push (.literal c)) rest
  | ['\\'] => none
  | c :: rest => readFrom (some c) (draft.push (.literal c)) rest
termination_by pattern => pattern.length
decreasing_by all_goals simp only [List.length_drop, List.length_cons]; omega

def ofText? (pattern : String) : Option Glob :=
  (readFrom none ⟨[], []⟩ pattern.toList).bind (·.finish?)

end Requalify.Glob
