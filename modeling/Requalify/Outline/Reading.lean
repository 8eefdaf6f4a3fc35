import Requalify.Outline.Draft
import Requalify.Token.Lexer

/-!
Reading the outline of a file. This is no parser of the language: names are classified by the tokens
around them. A name directly behind a type and in front of one of `= ; , ( ) [ { :` is declared; other
names are mentions, except behind a member access, in an operator, a label or an attribute. Every step
says how many tokens it takes beyond its own.
-/

namespace Requalify

namespace Draft

/-- What follows a name that is declared. -/
def declaratorFollows : List String :=
  ["=", ";", ",", "(", ")", "[", "\x7b", ":"]

def isLabel (draft : Draft) (before rest : List Token) : Bool :=
  Token.startsWith rest ":" && draft.frame.kind == .block &&
    match before with
    | [] => true
    | previous :: _ =>
        previous.isPunctuator ";" || previous.isPunctuator "\x7b" || previous.isPunctuator "\x7d"

/-- The single name between `before` and `rest` is being declared. -/
def isDeclarator (draft : Draft) (before rest : List Token) : Bool :=
  match rest with
  | [] => false
  | next :: _ =>
      next.kind == .punctuator && declaratorFollows.contains next.text &&
        if Token.startsWith (before.dropWhile Token.isIndirection) "," then
          draft.frame.declaring == some draft.frame.parens
        else Token.endsType before

def expectsEnumerator (draft : Draft) : Bool :=
  draft.frame.awaitsEnumerator && draft.frame.parens == 0

def declareVariable (draft : Draft) (name : NameToken) (rest : List Token) : Draft :=
  let parens := draft.frame.parens
  let draft :=
    if draft.frame.typedefStart.isSome then draft
    else if parens = 0 && Token.startsWith rest "(" then draft.declare name .function
    else draft.declare name .variable
  { draft with frame := { draft.frame with declaring := some parens } }

/-- A chain between `before` and `rest`: a declared name, a label or a mention. -/
def readName (draft : Draft) (before : List Token) (chain : NameChain) (rest : List Token) : Draft :=
  if chain.isSingle && draft.expectsEnumerator then draft.declareEnumerator chain.last
  else if chain.isSingle && draft.isLabel before rest then draft
  else if chain.isSingle && draft.isDeclarator before rest then draft.declareVariable chain.last rest
  else draft.mention chain (if before.head?.any Token.isConstancy then .constancy else .plain)

/-- A `::` here goes on with an expression whose meaning is unknown. -/
def followsDependent (before : List Token) : Bool :=
  match before with
  | [] => false
  | previous :: _ =>
      previous.isIdentifier || previous.isPunctuator ">" || previous.isPunctuator ")" ||
        previous.isPunctuator "]"

def stepName (draft : Draft) (before : List Token) (token : Token) (rest : List Token) :
    Draft × Nat :=
  if token.isScope && followsDependent before then
    (draft, Token.dependentLength 0 (token :: rest) - 1)
  else
    match NameChain.read? (token :: rest) with
    | none => (draft, 0)
    | some chain =>
        (draft.readName before chain (rest.drop (chain.size - 1)), chain.size - 1)

/-! Declarations with a form of their own. The tokens of `rest` follow the keyword. -/

/-- The names of a namespace definition, and how many tokens they take. -/
def definitionNames (outerInline : Bool) (names : List (String × Bool)) (count : Nat) :
    List Token → List (String × Bool) × Nat
  | [] => (names.reverse, count)
  | token :: rest =>
      if token.isKeyword "inline" then
        match rest with
        | name :: after =>
            if name.isIdentifier then
              let names := (name.text, true) :: names
              match after with
              | separator :: more =>
                  if separator.isScope then definitionNames outerInline names (count + 3) more
                  else (names.reverse, count + 2)
              | [] => (names.reverse, count + 2)
            else (names.reverse, count + 1)
        | [] => (names.reverse, count + 1)
      else if token.isIdentifier then
        let names := (token.text, names.isEmpty && outerInline) :: names
        match rest with
        | separator :: more =>
            if separator.isScope then definitionNames outerInline names (count + 2) more
            else (names.reverse, count + 1)
        | [] => (names.reverse, count + 1)
      else (names.reverse, count)

def stepNamespace (draft : Draft) (before : List Token) (keyword : Token) (rest : List Token) :
    Draft × Nat :=
  let lead := Token.attributesLength 0 rest
  if Token.startsWith (rest.drop lead) "\x7b" then
    ({ draft with opening := some (.anonymous keyword.span) }, lead)
  else
    let isInline := Token.startsWithKeyword before "inline"
    let (names, count) := definitionNames isInline [] 0 (rest.drop lead)
    let count := Token.attributesLength (lead + count) (rest.drop (lead + count))
    let after := rest.drop count
    match names, NameChain.read? (after.drop 1) with
    | [(name, _)], some target =>
        if Token.startsWith after "=" then
          (draft.recordUsing .namespaceAlias keyword target (some name), count + 1 + target.size)
        else if Token.startsWith after "\x7b" then
          ({ draft with opening := some (.named names) }, count)
        else (draft, count)
    | [], _ => (draft, count)
    | _ :: _, _ =>
        if Token.startsWith after "\x7b" then ({ draft with opening := some (.named names) }, count)
        else (draft, count)

def stepUsing (draft : Draft) (keyword : Token) (rest : List Token) : Draft × Nat :=
  match rest with
  | [] => (draft, 0)
  | next :: after =>
      if next.isKeyword "namespace" then
        match NameChain.read? after with
        | some target => (draft.recordUsing .directive keyword target none, 1 + target.size)
        | none => (draft, 1)
      else if next.isIdentifier && Token.startsWith after "=" then
        (draft.declare next.name .typeAlias, 2)
      else if next.isKeyword "enum" then (draft, 1)
      else
        let lead := if next.isKeyword "typename" then 1 else 0
        match NameChain.read? (rest.drop lead) with
        | some target =>
            if target.isSingle then (draft, lead + target.size)
            else (draft.recordUsing .declaration keyword target none, lead + target.size)
        | none => (draft, lead)

/-- The name at the head of `rest` is a template parameter. -/
def isTemplateParameter (before rest : List Token) : Bool :=
  (Token.startsWith rest "," || Token.startsWith rest ">" || Token.startsWith rest "=") &&
    (Token.startsWithKeyword before "class" || Token.startsWithKeyword before "typename" ||
      Token.endsType before)

/-- Park the parameters of a template, and count the tokens of its list. -/
def readTemplate (depth parens count : Nat) (parked : List (String × Nat)) (before : List Token) :
    List Token → List (String × Nat) × Nat
  | [] => (parked, count)
  | token :: rest =>
      let count := count + 1
      if token.isPunctuator "(" then
        readTemplate depth (parens + 1) count parked (token :: before) rest
      else if token.isPunctuator ")" then
        readTemplate depth (parens - 1) count parked (token :: before) rest
      else if parens == 0 && token.isPunctuator "<" then
        readTemplate (depth + 1) parens count parked (token :: before) rest
      else if parens == 0 && token.isPunctuator ">" then
        if depth ≤ 1 then (parked, count)
        else readTemplate (depth - 1) parens count parked (token :: before) rest
      else if token.isPunctuator ";" || token.isPunctuator "\x7b" then (parked, count)
      else
        let parked :=
          if depth == 1 && parens == 0 && token.isIdentifier && isTemplateParameter before rest then
            (token.text, token.start) :: parked
          else parked
        readTemplate depth parens count parked (token :: before) rest

def stepTemplate (draft : Draft) (before : List Token) (keyword : Token) (rest : List Token) :
    Draft × Nat :=
  if Token.startsWith rest "<" then
    let (parked, count) := readTemplate 0 0 0 draft.parked (keyword :: before) rest
    ({ draft with parked := parked }, count)
  else (draft, 0)

/-- The tokens go on with the body of a record. -/
def opensRecord (tokens : List Token) : Bool :=
  Token.startsWith tokens "\x7b" || Token.startsWith tokens ":" || Token.startsWith tokens "<" ||
    Token.startsWithKeyword tokens "final"

/-- The name of a record head that begins with `name`: names in front of the last one that a body
follows only decorate it. `count` tokens stand in front of `name`, and the given ones behind it. -/
def recordName (count : Nat) (name : NameChain) (tokens : List Token) : NameChain × Nat :=
  let lead := Token.attributesLength 0 tokens
  match _found : NameChain.read? (tokens.drop lead) with
  | none => (name, count)
  | some candidate =>
      let after := tokens.drop (lead + candidate.size)
      if opensRecord (Token.afterAttributes after) then
        recordName (count + name.size + lead) candidate after
      else (name, count)
termination_by tokens.length
decreasing_by
  have size := candidate.size_pos
  have length : 0 < tokens.length := by
    apply List.length_pos_iff.mpr
    rintro rfl
    exact NameChain.ne_nil_of_read? _found (by simp)
  simp
  omega

def stepRecord (draft : Draft) (before : List Token) (rest : List Token) : Draft × Nat :=
  let lead := Token.attributesLength 0 rest
  match NameChain.read? (rest.drop lead) with
  | none =>
      let head := rest.drop lead
      if Token.startsWith head "\x7b" || Token.startsWith head ":" then
        ({ draft with opening := some .record }, lead)
      else (draft, lead)
  | some first =>
      let (name, count) := recordName lead first (rest.drop (lead + first.size))
      let stop := count + name.size
      let after := Token.attributesLength stop (rest.drop stop)
      let forward := Token.startsWith (rest.drop after) ";"
      if Token.startsWithKeyword before "friend" || !(forward || opensRecord (rest.drop after)) then
        (draft.mention name .typeKeyword, stop)
      else
        let draft := if name.isSingle then draft.declare name.last .record else draft
        (if forward then draft else { draft with opening := some .record }, after)

def stepEnumeration (draft : Draft) (rest : List Token) : Draft × Nat :=
  let closed := Token.startsWithKeyword rest "class" || Token.startsWithKeyword rest "struct"
  let lead := if closed then 1 else 0
  let lead := Token.attributesLength lead (rest.drop lead)
  let name? := NameChain.read? (rest.drop lead)
  let stop := lead + (name?.map NameChain.size).getD 0
  let after := rest.drop stop
  let body := Token.startsWith after "\x7b"
  let underlying := Token.startsWith after ":"
  if body || underlying || Token.startsWith after ";" then
    let draft := match name? with
      | some name => if name.isSingle then draft.declare name.last .enumeration else draft
      | none => draft
    let draft :=
      if body || underlying then { draft with opening := some (.enumeration closed) } else draft
    (draft, if underlying then stop + 1 else stop)
  else
    match name? with
    | some name => (draft.mention name .typeKeyword, stop)
    | none => (draft, stop)

def stepKeyword (draft : Draft) (before : List Token) (token : Token) (rest : List Token) :
    Draft × Nat :=
  match token.text with
  | "namespace" => draft.stepNamespace before token rest
  | "using" => draft.stepUsing token rest
  | "template" => draft.stepTemplate before token rest
  | "class" | "struct" | "union" => draft.stepRecord before rest
  | "enum" => draft.stepEnumeration rest
  | "typedef" =>
      ({ draft with frame := { draft.frame with typedefStart := some token.start } }, 0)
  | "operator" => (draft, Token.operatorLength rest)
  | "extern" =>
      if rest.head?.any (·.kind == .literal) && Token.startsWith (rest.drop 1) "\x7b" then
        ({ draft with opening := some .linkage }, 1)
      else (draft, 0)
  | "goto" => (draft, 1)
  | "public" | "private" | "protected" => (draft, if Token.startsWith rest ":" then 1 else 0)
  | _ => (draft, 0)

def setParens (draft : Draft) (parens : Nat) : Draft :=
  { draft with frame := { draft.frame with parens := parens } }

def stepPunctuator (draft : Draft) (before : List Token) (token : Token) (rest : List Token) :
    Draft × Nat :=
  match token.text with
  | "\x7b" => (draft.openScope token (Token.startsWithIdentifier before), 0)
  | "\x7d" => (draft.closeScope token, 0)
  | ";" => (draft.endStatement before, 0)
  | "(" => (draft.setParens (draft.frame.parens + 1), 0)
  | ")" => (draft.setParens (draft.frame.parens - 1), 0)
  | "[" => (draft, if Token.startsWith rest "[" then Token.groupLength "[" "]" 1 0 rest else 0)
  | "." | "->" | ".*" | "->*" => (draft, Token.memberLength rest)
  | "~" =>
      (draft, if Token.startsWithIdentifier rest && Token.startsWith (rest.drop 1) "(" then 1 else 0)
  | "," =>
      match draft.frame.kind with
      | .enumeration _ =>
          if draft.frame.parens = 0 then
            ({ draft with frame := { draft.frame with awaitsEnumerator := true } }, 0)
          else (draft, 0)
      | _ => (draft, 0)
  | _ => (draft, 0)

/-- Take the token between `before` and `rest`, and tell how many more tokens go with it. -/
def step (draft : Draft) (before : List Token) (token : Token) (rest : List Token) : Draft × Nat :=
  match token.kind with
  | .keyword => draft.stepKeyword before token rest
  | .identifier | .scope => draft.stepName before token rest
  | .punctuator => draft.stepPunctuator before token rest
  | .number | .literal => (draft, 0)

def readFrom (draft : Draft) (before : List Token) : List Token → Draft
  | [] => draft
  | token :: rest =>
      let (draft, more) := draft.step before token rest
      draft.readFrom ((rest.take more).reverse ++ token :: before) (rest.drop more)
termination_by tokens => tokens.length
decreasing_by simp only [List.length_drop, List.length_cons]; omega

end Draft

def Outline.ofText (text : String) : Outline :=
  ((Draft.start (Text.byteLength text.toList)).readFrom [] (tokenize text)).finish

end Requalify
