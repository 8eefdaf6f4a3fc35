import Requalify.Text.Blank
import Requalify.Token

/-!
Cutting a text into tokens. Blanks, comments and preprocessor lines are gaps and leave no token. `Piece`
says what stands at the beginning of a text; it always covers a character, so cutting off one piece after
the other comes to an end. Two closing angle brackets are two tokens, because they may close two lists.
-/

namespace Requalify

/-- What stands at the beginning of a text; `more` counts its characters after the first. -/
inductive Piece where
  | gap (more : Nat)
  | token (kind : TokenKind) (more : Nat)
  deriving DecidableEq

namespace Piece

def isNameStart (c : Char) : Bool :=
  c.isAlpha || c == '_' || 128 ≤ c.toNat

def isNamePart (c : Char) : Bool :=
  c.isAlphanum || c == '_' || 128 ≤ c.toNat

/-- The characters at the beginning of a text that can go on a name. -/
def nameLength (text : List Char) : Nat :=
  (text.takeWhile isNamePart).length

/-- The length of a block comment behind its opening; an open comment takes the whole text. -/
def commentLength (count : Nat) : List Char → Nat
  | '*' :: '/' :: _ => count + 2
  | _ :: rest => commentLength (count + 1) rest
  | [] => count

/-- Where a preprocessor line stands. `escaped` tells whether a backslash is the last character of the
current line so far, blanks aside, which carries the directive over the next line feed. -/
inductive DirectiveState where
  | code (escaped : Bool)
  | lineComment (escaped : Bool)
  | blockComment

def stillEscaped (escaped : Bool) (c : Char) : Bool :=
  if c = ' ' || c = '\t' || c = '\r' then escaped else c == '\\'

/-- The length of the rest of a directive, up to the line feed that ends it. -/
def directiveLength : DirectiveState → Nat → List Char → Nat
  | _, count, [] => count
  | .blockComment, count, '*' :: '/' :: rest => directiveLength (.code false) (count + 2) rest
  | .blockComment, count, _ :: rest => directiveLength .blockComment (count + 1) rest
  | .code _, count, '/' :: '*' :: rest => directiveLength .blockComment (count + 2) rest
  | .code _, count, '/' :: '/' :: rest => directiveLength (.lineComment false) (count + 2) rest
  | .code escaped, count, '\n' :: rest =>
      if escaped then directiveLength (.code false) (count + 1) rest else count
  | .lineComment escaped, count, '\n' :: rest =>
      if escaped then directiveLength (.code false) (count + 1) rest else count
  | .code escaped, count, c :: rest =>
      directiveLength (.code (stillEscaped escaped c)) (count + 1) rest
  | .lineComment escaped, count, c :: rest =>
      directiveLength (.lineComment (stillEscaped escaped c)) (count + 1) rest

/-- The length of a quoted literal behind its opening mark. It ends at the mark, or without one in
front of the line feed; a backslash hides the next character. -/
def quotedLength (mark : Char) (count : Nat) : List Char → Nat
  | [] => count
  | '\\' :: _ :: rest => quotedLength mark (count + 2) rest
  | c :: rest =>
      if c = '\n' then count
      else if c = mark then count + 1
      else quotedLength mark (count + 1) rest

/-- The characters up to and with the first `ending`; all of them if there is none. -/
def lengthThrough (ending : List Char) (count : Nat) : List Char → Nat
  | [] => count
  | c :: rest =>
      if ending.isPrefixOf (c :: rest) then count + ending.length
      else lengthThrough ending (count + 1) rest

/-- The length of a raw literal behind its opening mark: what stands in front of the first parenthesis
is repeated between the closing parenthesis and the closing mark. -/
def rawLength (text : List Char) : Nat :=
  let delimiter := text.takeWhile (· != '(')
  match text.drop delimiter.length with
  | [] => quotedLength '"' 0 text
  | _ :: body => lengthThrough (')' :: delimiter ++ ['"']) (delimiter.length + 1) body

/-- A length with the suffix that may follow a literal. -/
def withSuffix (length : Nat) (text : List Char) : Nat :=
  length + nameLength (text.drop length)

/-- The rest of a number whose last character so far is `previous`. -/
def numberLength (previous : Char) (count : Nat) : List Char → Nat
  | [] => count
  | c :: rest =>
      let signOfExponent := (c == '+' || c == '-') &&
        (previous == 'e' || previous == 'E' || previous == 'p' || previous == 'P')
      let separates := c == '\'' && rest.head?.any Char.isAlphanum
      if isNamePart c || c == '.' || signOfExponent || separates then
        numberLength c (count + 1) rest
      else count

def rawPrefixes : List String :=
  ["R", "u8R", "uR", "UR", "LR"]

def encodingPrefixes : List String :=
  ["u8", "u", "U", "L"]

/-- A name, or the literal that it is the beginning of. -/
def ofName (first : Char) (rest : List Char) : Piece :=
  let more := nameLength rest
  let name := String.ofList (first :: rest.take more)
  match rest.drop more with
  | '"' :: after =>
      if rawPrefixes.contains name then
        .token .literal (more + 1 + withSuffix (rawLength after) after)
      else if encodingPrefixes.contains name then
        .token .literal (more + 1 + withSuffix (quotedLength '"' 0 after) after)
      else .token (if keywords.contains name then .keyword else .identifier) more
  | '\'' :: after =>
      if encodingPrefixes.contains name then
        .token .literal (more + 1 + withSuffix (quotedLength '\'' 0 after) after)
      else .token (if keywords.contains name then .keyword else .identifier) more
  | _ => .token (if keywords.contains name then .keyword else .identifier) more

/-- Punctuators of more than one character, longer ones first. -/
def punctuators : List (List Char) :=
  ["<=>", "<<=", "...", "->*", "->", "<<", "<=", ">=", "==", "!=", "&&", "||", "++", "--",
    "+=", "-=", "*=", "/=", "%=", "&=", "|=", "^=", ".*", "##"].map String.toList

def ofPunctuator (text : List Char) : Piece :=
  match punctuators.find? (·.isPrefixOf text) with
  | some punctuator => .token .punctuator (punctuator.length - 1)
  | none => .token .punctuator 0

/-- The token at the beginning of a text that starts with `first`. -/
def ofToken (first : Char) (rest : List Char) : Piece :=
  if isNameStart first then ofName first rest
  else if first.isDigit || (first == '.' && rest.head?.any Char.isDigit) then
    .token .number (numberLength first 0 rest)
  else if first = '"' || first = '\'' then
    .token .literal (withSuffix (quotedLength first 0 rest) rest)
  else
    match first, rest with
    | ':', ':' :: _ => .token .scope 1
    | _, _ => ofPunctuator (first :: rest)

/-- The piece at the beginning of a text. `fresh` tells that only gaps stand in front of it on its line,
so that `#` starts a directive. -/
def first (fresh : Bool) (c : Char) (rest : List Char) : Piece :=
  if Text.isAsciiBlank c then .gap 0
  else
    match c, rest with
    | '/', '/' :: after => .gap (1 + (after.takeWhile (· != '\n')).length)
    | '/', '*' :: after => .gap (commentLength 1 after)
    | _, _ =>
        if c = '#' && fresh then .gap (directiveLength (.code false) 0 rest)
        else ofToken c rest

end Piece

/-- Cut tokens off the front of `text`, which starts at `offset`; `tokens` is nearest first. -/
def tokenizeFrom (offset : Nat) (fresh : Bool) (tokens : List Token) : List Char → List Token
  | [] => tokens.reverse
  | c :: rest =>
      match Piece.first fresh c rest with
      | .gap more =>
          let offset := offset + c.utf8Size + Text.byteLength (rest.take more)
          tokenizeFrom offset (fresh || c == '\n') tokens (rest.drop more)
      | .token kind more =>
          let lexeme := c :: rest.take more
          let token : Token := ⟨kind, String.ofList lexeme, offset⟩
          tokenizeFrom (offset + Text.byteLength lexeme) false (token :: tokens) (rest.drop more)
termination_by text => text.length
decreasing_by all_goals simp only [List.length_drop, List.length_cons]; omega

def tokenize (text : String) : List Token :=
  tokenizeFrom 0 true [] text.toList

end Requalify
