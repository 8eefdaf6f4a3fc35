import Requalify.Token

/-!
What stands around a place in a list of tokens: bracket groups and attributes ahead of it, and behind it
whether a type has just ended. Tokens behind a place are listed nearest first.
-/

namespace Requalify.Token

def startsWith (tokens : List Token) (text : String) : Bool :=
  tokens.head?.any (·.isPunctuator text)

def startsWithKeyword (tokens : List Token) (text : String) : Bool :=
  tokens.head?.any (·.isKeyword text)

def startsWithIdentifier (tokens : List Token) : Bool :=
  tokens.head?.any (·.isIdentifier)

/-- How many tokens follow up to the bracket that closes the innermost of `depth` open groups and all
around it; all tokens if it is missing. -/
def groupLength (opening closing : String) (depth count : Nat) : List Token → Nat
  | [] => count
  | token :: rest =>
      if token.isPunctuator opening then groupLength opening closing (depth + 1) (count + 1) rest
      else if token.isPunctuator closing then
        if depth ≤ 1 then count + 1 else groupLength opening closing (depth - 1) (count + 1) rest
      else groupLength opening closing depth (count + 1) rest

def opensAttribute (token : Token) : Bool :=
  token.isKeyword "alignas" || token.text == "__attribute__" || token.text == "__declspec"

/-- How many tokens belong to attributes at the beginning. -/
def attributesLength (count : Nat) : List Token → Nat
  | first :: second :: rest =>
      if first.isPunctuator "[" && second.isPunctuator "[" then
        let group := groupLength "[" "]" 2 1 rest
        attributesLength (count + 1 + group) ((second :: rest).drop group)
      else if first.opensAttribute && second.isPunctuator "(" then
        let group := groupLength "(" ")" 1 0 rest
        attributesLength (count + 2 + group) (rest.drop group)
      else count
  | _ => count
termination_by tokens => tokens.length

theorem attributesLength_of_first {token : Token} {rest : List Token}
    (notSquare : token.isPunctuator "[" = false)
    (noGroup : (token.opensAttribute && startsWith rest "(") = false) (count : Nat) :
    attributesLength count (token :: rest) = count := by
  cases rest with
  | nil =>
      rw [attributesLength]
      simp
  | cons next rest =>
      have noGroup : (token.opensAttribute && next.isPunctuator "(") = false := noGroup
      rw [attributesLength]
      simp [notSquare, noGroup]

/-- The tokens behind attributes at the beginning, if there are any. -/
def afterAttributes (tokens : List Token) : List Token :=
  tokens.drop (attributesLength 0 tokens)

/-- How many tokens belong to the `:: name` pairs at the beginning. -/
def scopedNamesLength : List Token → Nat
  | separator :: name :: rest =>
      if separator.isScope && name.isIdentifier then 2 + scopedNamesLength rest else 0
  | _ => 0

/-- A `template` and a `~` may stand in front of the name of a member. -/
def memberLeadLength (tokens : List Token) : Nat :=
  let keyword := if startsWithKeyword tokens "template" then 1 else 0
  keyword + if startsWith (tokens.drop keyword) "~" then 1 else 0

/-- How many tokens name the member that is selected by a preceding `.` or `->`. -/
def memberLength (tokens : List Token) : Nat :=
  let lead := memberLeadLength tokens
  match tokens.drop lead with
  | name :: rest => if name.isIdentifier then lead + 1 + scopedNamesLength rest else lead
  | [] => lead

/-- How many tokens belong to `:: name` pairs whose meaning depends on what stands in front of them. -/
def dependentLength (count : Nat) : List Token → Nat
  | [] => count
  | separator :: rest =>
      if separator.isScope then
        let lead := memberLeadLength rest
        match remainder : rest.drop lead with
        | name :: after =>
            if name.isIdentifier then dependentLength (count + lead + 2) after else count + lead + 1
        | [] => count + lead + 1
      else count
termination_by tokens => tokens.length
decreasing_by
  have lengths := congrArg List.length remainder
  simp at lengths
  simp
  omega

/-- How many tokens after the keyword `operator` spell the operator. -/
def operatorLength (tokens : List Token) : Nat :=
  match tokens with
  | [] => 0
  | first :: rest =>
      if first.isPunctuator "(" && startsWith rest ")" then 2
      else if first.kind = .literal then 1
      else (tokens.takeWhile fun token => token.kind == .punctuator && token.text != "(").length

/-- The `>` at the head closes a list of template arguments. -/
def closesTemplate (depth parens : Nat) : List Token → Bool
  | [] => false
  | token :: before =>
      if token.isPunctuator ")" then closesTemplate depth (parens + 1) before
      else if token.isPunctuator "(" then
        if parens = 0 then false else closesTemplate depth (parens - 1) before
      else if 0 < parens then closesTemplate depth parens before
      else if token.isPunctuator ">" then closesTemplate (depth + 1) parens before
      else if token.isPunctuator "<" then
        if depth ≤ 1 then startsWithIdentifier before else closesTemplate (depth - 1) parens before
      else if token.isPunctuator ";" || token.isPunctuator "\x7b" || token.isPunctuator "\x7d" then false
      else closesTemplate depth parens before

def isConstancy (token : Token) : Bool :=
  token.isKeyword "const" || token.isKeyword "volatile"

def isIndirection (token : Token) : Bool :=
  token.isPunctuator "*" || token.isPunctuator "&" || token.isPunctuator "&&"

/-- The tokens end a type, so that a name behind them would be declared. -/
def endsType : List Token → Bool
  | [] => false
  | token :: before =>
      if token.isIdentifier then true
      else if token.kind = .keyword && typeKeywords.contains token.text then true
      else if token.isPunctuator "..." then true
      else if token.isPunctuator ">" then closesTemplate 0 0 (token :: before)
      else if token.isConstancy || token.isIndirection then endsType before
      else false

end Requalify.Token
