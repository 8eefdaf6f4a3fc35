import Requalify.Outline.Reading
import Requalify.Proofs.Token.Cursor

/-!
Reading the outline of a file by index. A cursor goes through the tokens, looks ahead of it and behind it, and
keeps the open scopes on a stack. A token that has to be there and is not, an empty stack, a count below zero
and a search or a reading without end are faults.
-/

namespace Requalify

/-- A reader at an index. The scopes that are open are on a stack, innermost first, and not in what is found.
There, a type definition is known by the index of its keyword. -/
structure Cursor where
  index : Nat
  frames : List Frame
  found : Draft

namespace Cursor

def start (size : Nat) : Cursor where
  index := 0
  frames := [Frame.ofScope 0 .global NamespacePath.globalPath]
  found := Draft.start size

/-- What is found, in the scopes that are open. -/
def current (cursor : Cursor) : Checked Draft :=
  match cursor.frames with
  | [] => .error .noScope
  | frame :: outer => .ok { cursor.found with frame := frame, outer := outer }

/-- Go on at an index with what is found, in the same scopes. -/
def goTo (cursor : Cursor) (index : Nat) (found : Draft) : Cursor where
  index := index
  frames := found.frame :: cursor.frames.tail
  found := found

/-- Pass over the tokens in front of an index. -/
def skipTo (cursor : Cursor) (index : Nat) : Checked Cursor := do
  return cursor.goTo index (← cursor.current)

variable (tokens : List Token)

/-! Names. -/

/-- Skip the `*` and `&` in front of a name. -/
def indirectionStart : Nat → Checked Nat
  | 0 => .ok 0
  | index + 1 => do
      let token ← fetch tokens (index + 1)
      if token.isIndirection then indirectionStart index else return index + 1

def isLabel (draft : Draft) (index stop : Nat) : Bool :=
  isMarkAt tokens stop ":" && draft.frame.kind == .block &&
    (previous? tokens index).all fun previous =>
      previous.isPunctuator ";" || previous.isPunctuator "\x7b" || previous.isPunctuator "\x7d"

/-- The single name from an index up to another one is being declared. -/
def isDeclarator (draft : Draft) (index stop : Nat) : Checked Bool := do
  match tokens[stop]? with
  | none => return false
  | some next =>
      if next.kind != .punctuator || !Draft.declaratorFollows.contains next.text then return false
      else if (previous? tokens index).isNone then return false
      else
        let last ← less index
        let token ← fetch tokens (← indirectionStart tokens last)
        if token.isPunctuator "," then return draft.frame.declaring == some draft.frame.parens
        else endsType tokens last

def mentionAt (draft : Draft) (chain : NameChain) (index : Nat) : Draft :=
  draft.mention chain (if (previous? tokens index).any Token.isConstancy then .constancy else .plain)

def readName (cursor : Cursor) : Checked Cursor := do
  let token ← fetch tokens cursor.index
  let draft ← cursor.current
  let isDependent := (previous? tokens cursor.index).any fun previous =>
    previous.isIdentifier || previous.isPunctuator ">" || previous.isPunctuator ")" ||
      previous.isPunctuator "]"
  if token.isScope && isDependent then return cursor.goTo (← dependentEnd tokens cursor.index) draft
  else
    match ← chainAt tokens cursor.index with
    | none => return cursor.goTo (cursor.index + 1) draft
    | some (chain, stop) =>
        if chain.isSingle then
          if draft.expectsEnumerator then return cursor.goTo stop (draft.declareEnumerator chain.last)
          else if isLabel tokens draft cursor.index stop then return cursor.goTo stop draft
          else if ← isDeclarator tokens draft cursor.index stop then
            return cursor.goTo stop (draft.declareVariable chain.last (tokens.drop stop))
          else return cursor.goTo stop (mentionAt tokens draft chain cursor.index)
        else return cursor.goTo stop (mentionAt tokens draft chain cursor.index)

/-! Declarations with a form of their own. -/

/-- The names of a namespace definition from an index on, and where they end. -/
def definitionNames (outerInline : Bool) :
    Nat → Nat → List (String × Bool) → Checked (List (String × Bool) × Nat)
  | 0, _, _ => .error .endless
  | rounds + 1, index, names =>
      let isInline := isKeywordAt tokens index "inline"
      let index := if isInline then index + 1 else index
      match tokens[index]?.filter (·.isIdentifier) with
      | none => .ok (names.reverse, index)
      | some name =>
          let names := (name.text, isInline || names.isEmpty && outerInline) :: names
          if isSeparatorAt tokens (index + 1) then definitionNames outerInline rounds (index + 2) names
          else .ok (names.reverse, index + 1)

def readNamespace (cursor : Cursor) : Checked Cursor := do
  let keyword ← fetch tokens cursor.index
  let draft ← cursor.current
  let outerInline := (previous? tokens cursor.index).any (·.isKeyword "inline")
  let lead ← attributesEnd tokens (cursor.index + 1)
  if isMarkAt tokens lead "\x7b" then
    return cursor.goTo lead { draft with opening := some (.anonymous keyword.span) }
  else
    let (names, stop) ← definitionNames tokens outerInline (tokens.length + 1) lead []
    let stop ← attributesEnd tokens stop
    let target? ← if names.length = 1 && isMarkAt tokens stop "=" then chainAt tokens (stop + 1)
      else pure none
    match target? with
    | some (target, after) =>
        return cursor.goTo after
          (draft.recordUsing .namespaceAlias keyword target (names.head?.map (·.1)))
    | none =>
        if !names.isEmpty && isMarkAt tokens stop "\x7b" then
          return cursor.goTo stop { draft with opening := some (.named names) }
        else return cursor.goTo stop draft

def readUsing (cursor : Cursor) : Checked Cursor := do
  let keyword ← fetch tokens cursor.index
  let draft ← cursor.current
  let first := cursor.index + 1
  match tokens[first]? with
  | none => return cursor.goTo first draft
  | some next =>
      if next.isKeyword "namespace" then
        match ← chainAt tokens (first + 1) with
        | some (target, stop) => return cursor.goTo stop (draft.recordUsing .directive keyword target none)
        | none => return cursor.goTo (first + 1) draft
      else if next.isIdentifier && isMarkAt tokens (first + 1) "=" then
        return cursor.goTo (first + 2) (draft.declare next.name .typeAlias)
      else if next.isKeyword "enum" then return cursor.goTo (first + 1) draft
      else
        let start := if next.isKeyword "typename" then first + 1 else first
        match ← chainAt tokens start with
        | some (target, stop) =>
            if target.isSingle then return cursor.goTo stop draft
            else return cursor.goTo stop (draft.recordUsing .declaration keyword target none)
        | none => return cursor.goTo start draft

/-- The name at an index is a template parameter. -/
def isTemplateParameter (index : Nat) : Checked Bool := do
  if isMarkAt tokens (index + 1) "," || isMarkAt tokens (index + 1) ">" || isMarkAt tokens (index + 1) "=" then
    if (previous? tokens index).any fun previous =>
        previous.isKeyword "class" || previous.isKeyword "typename" then return true
    else endsType tokens (← less index)
  else return false

/-- Park the parameters of a template from an index on, up to where its list ends. -/
def parametersFrom : Nat → Nat → Nat → Nat → List (String × Nat) → Checked (List (String × Nat) × Nat)
  | 0, _, _, _, _ => .error .endless
  | rounds + 1, index, depth, parens, parked =>
      match tokens[index]? with
      | none => .ok (parked, index)
      | some token => do
          if token.isPunctuator "(" then parametersFrom rounds (index + 1) depth (parens + 1) parked
          else if token.isPunctuator ")" then parametersFrom rounds (index + 1) depth (parens - 1) parked
          else if parens == 0 && token.isPunctuator "<" then
            parametersFrom rounds (index + 1) (depth + 1) parens parked
          else if parens == 0 && token.isPunctuator ">" then
            if depth - 1 = 0 then return (parked, index)
            else parametersFrom rounds (index + 1) (depth - 1) parens parked
          else if token.isPunctuator ";" || token.isPunctuator "\x7b" then return (parked, index)
          else
            let isParameter ←
              if depth == 1 && parens == 0 && token.isIdentifier then isTemplateParameter tokens index
              else pure false
            parametersFrom rounds (index + 1) depth parens
              (if isParameter then (token.text, token.start) :: parked else parked)

def readTemplate (cursor : Cursor) : Checked Cursor := do
  let draft ← cursor.current
  let first := cursor.index + 1
  if isMarkAt tokens first "<" then
    let (parked, last) ← parametersFrom tokens (tokens.length + 1) first 0 0 draft.parked
    return cursor.goTo (last + 1) { draft with parked := parked }
  else return cursor.goTo first draft

def opensRecord (index : Nat) : Bool :=
  isMarkAt tokens index "\x7b" || isMarkAt tokens index ":" || isMarkAt tokens index "<" ||
    isKeywordAt tokens index "final"

/-- The name of a record head that begins with `name`, and where it ends. -/
def recordName : Nat → NameChain → Nat → Checked (NameChain × Nat)
  | 0, _, _ => .error .endless
  | rounds + 1, name, stop => do
      match ← chainAt tokens (← attributesEnd tokens stop) with
      | none => return (name, stop)
      | some (candidate, after) =>
          if opensRecord tokens (← attributesEnd tokens after) then recordName rounds candidate after
          else return (name, stop)

def readRecord (cursor : Cursor) : Checked Cursor := do
  let draft ← cursor.current
  let isFriend := (previous? tokens cursor.index).any (·.isKeyword "friend")
  let lead ← attributesEnd tokens (cursor.index + 1)
  match ← chainAt tokens lead with
  | none =>
      if isMarkAt tokens lead "\x7b" || isMarkAt tokens lead ":" then
        return cursor.goTo lead { draft with opening := some .record }
      else return cursor.goTo lead draft
  | some (first, stop) =>
      let (name, stop) ← recordName tokens (tokens.length + 1) first stop
      let after ← attributesEnd tokens stop
      let forward := isMarkAt tokens after ";"
      if isFriend || !(forward || opensRecord tokens after) then
        return cursor.goTo stop (draft.mention name .typeKeyword)
      else
        let draft := if name.isSingle then draft.declare name.last .record else draft
        return cursor.goTo after (if forward then draft else { draft with opening := some .record })

def readEnumeration (cursor : Cursor) : Checked Cursor := do
  let draft ← cursor.current
  let first := cursor.index + 1
  let closed := isKeywordAt tokens first "class" || isKeywordAt tokens first "struct"
  let lead ← attributesEnd tokens (if closed then first + 1 else first)
  let name? ← chainAt tokens lead
  let stop := (name?.map (·.2)).getD lead
  let body := isMarkAt tokens stop "\x7b"
  let underlying := isMarkAt tokens stop ":"
  if body || underlying || isMarkAt tokens stop ";" then
    let draft := match name? with
      | some (name, _) => if name.isSingle then draft.declare name.last .enumeration else draft
      | none => draft
    let draft :=
      if body || underlying then { draft with opening := some (.enumeration closed) } else draft
    return cursor.goTo (if underlying then stop + 1 else stop) draft
  else
    match name? with
    | some (name, _) => return cursor.goTo stop (draft.mention name .typeKeyword)
    | none => return cursor.goTo stop draft

/-! Type definitions. -/

def beginTypedef (cursor : Cursor) : Checked Cursor := do
  let draft ← cursor.current
  return cursor.goTo (cursor.index + 1)
    { draft with frame := { draft.frame with typedefStart := some cursor.index } }

/-- The index of the name in `( * name )`, the first such place from an index on. -/
def pointerName : Nat → Nat → Checked (Option Nat)
  | 0, _ => .ok none
  | count + 1, index => do
      let first ← fetch tokens index
      let second ← fetch tokens (index + 1)
      let name ← fetch tokens (index + 2)
      let last ← fetch tokens (index + 3)
      if first.isPunctuator "(" && second.isPunctuator "*" && name.isIdentifier &&
          last.isPunctuator ")" then return some (index + 2)
      else pointerName count (index + 1)

/-- The index of the last name outside all brackets, from `first` on and in front of an index. -/
def outerName (first depth : Nat) : Nat → Checked (Option Nat)
  | 0 => .ok none
  | index + 1 => do
      if index < first then return none
      else
        let token ← fetch tokens index
        if token.isPunctuator ")" || token.isPunctuator "]" || token.isPunctuator "\x7d" then
          outerName first (depth + 1) index
        else if token.isPunctuator "(" || token.isPunctuator "[" || token.isPunctuator "\x7b" then
          outerName first (depth - 1) index
        else if depth = 0 && token.isIdentifier then return some index
        else outerName first depth index

/-- The index of the name that a type definition introduces, between its keyword and its semicolon. -/
def typedefName (keyword semicolon : Nat) : Checked (Option Nat) := do
  match ← pointerName tokens (semicolon - 3 - (keyword + 1)) (keyword + 1) with
  | some index => return some index
  | none => outerName tokens (keyword + 1) 0 semicolon

def finishTypedef (draft : Draft) (keyword semicolon : Nat) : Checked Draft := do
  match ← typedefName tokens keyword semicolon with
  | none => return draft
  | some index =>
      let token ← fetch tokens index
      let draft := { draft with mentions := draft.mentions.filter (·.chain.start != token.start) }
      return draft.declare token.name .typeAlias

def endStatement (cursor : Cursor) : Checked Cursor := do
  let draft ← cursor.current
  if draft.frame.parens = 0 then
    let typedefStart := draft.frame.typedefStart
    let draft := { draft with frame := { draft.frame with typedefStart := none, declaring := none } }
    let draft ← match typedefStart with
      | some keyword => finishTypedef tokens draft keyword cursor.index
      | none => pure draft
    return cursor.goTo (cursor.index + 1) { draft with opening := none, parked := [] }
  else return cursor.goTo (cursor.index + 1) draft

/-! Scopes. -/

def openScope (cursor : Cursor) : Checked Cursor := do
  let brace ← fetch tokens cursor.index
  let draft ← cursor.current
  let found := draft.openScope brace ((previous? tokens cursor.index).any (·.isIdentifier))
  return ⟨cursor.index + 1, found.frame :: cursor.frames, found⟩

/-- Close the innermost scope. The scope of the file itself stays open. -/
def closeScope (cursor : Cursor) : Checked Cursor := do
  let brace ← fetch tokens cursor.index
  if 1 < cursor.frames.length then
    match cursor.frames with
    | [] => .error .noScope
    | frame :: outer =>
        let scopes := cursor.found.scopes.modify frame.scope fun scope =>
          { scope with span := Span.between scope.span.start brace.stop }
        return ⟨cursor.index + 1, outer, { cursor.found with scopes := scopes, opening := none }⟩
  else return ⟨cursor.index + 1, cursor.frames, { cursor.found with opening := none }⟩

/-! What is done at a token. -/

/-- Declarations with foreign linkage may have a scope of their own. -/
def readLinkage (cursor : Cursor) : Checked Cursor := do
  let draft ← cursor.current
  if tokens[cursor.index + 1]?.any (·.kind == .literal) && isMarkAt tokens (cursor.index + 2) "\x7b" then
    return cursor.goTo (cursor.index + 2) { draft with opening := some .linkage }
  else return cursor.goTo (cursor.index + 1) draft

def readKeyword (cursor : Cursor) (token : Token) : Checked Cursor := do
  match token.text with
  | "namespace" => readNamespace tokens cursor
  | "using" => readUsing tokens cursor
  | "template" => readTemplate tokens cursor
  | "class" | "struct" | "union" => readRecord tokens cursor
  | "enum" => readEnumeration tokens cursor
  | "typedef" => cursor.beginTypedef
  | "operator" => cursor.skipTo (← operatorEnd tokens (cursor.index + 1))
  | "extern" => readLinkage tokens cursor
  | "goto" => cursor.skipTo (cursor.index + 2)
  | "public" | "private" | "protected" =>
      cursor.skipTo (if isMarkAt tokens (cursor.index + 1) ":" then cursor.index + 2 else cursor.index + 1)
  | _ => cursor.skipTo (cursor.index + 1)

def setParens (cursor : Cursor) (change : Nat → Nat) : Checked Cursor := do
  let draft ← cursor.current
  return cursor.goTo (cursor.index + 1) (draft.setParens (change draft.frame.parens))

/-- An enumerator follows the comma in an enumeration. -/
def readComma (cursor : Cursor) : Checked Cursor := do
  let draft ← cursor.current
  match draft.frame.kind with
  | .enumeration _ =>
      if draft.frame.parens = 0 then
        return cursor.goTo (cursor.index + 1)
          { draft with frame := { draft.frame with awaitsEnumerator := true } }
      else return cursor.goTo (cursor.index + 1) draft
  | _ => return cursor.goTo (cursor.index + 1) draft

def readPunctuator (cursor : Cursor) (token : Token) : Checked Cursor := do
  match token.text with
  | "\x7b" => openScope tokens cursor
  | "\x7d" => closeScope tokens cursor
  | ";" => endStatement tokens cursor
  | "(" => cursor.setParens (· + 1)
  | ")" => cursor.setParens (· - 1)
  | "[" =>
      if isMarkAt tokens (cursor.index + 1) "[" then
        cursor.skipTo (← groupEnd tokens cursor.index "[" "]")
      else cursor.skipTo (cursor.index + 1)
  | "." | "->" | ".*" | "->*" => cursor.skipTo (← memberEnd tokens (cursor.index + 1))
  | "~" =>
      if isNameAt tokens (cursor.index + 1) && isMarkAt tokens (cursor.index + 2) "(" then
        cursor.skipTo (cursor.index + 2)
      else cursor.skipTo (cursor.index + 1)
  | "," => cursor.readComma
  | _ => cursor.skipTo (cursor.index + 1)

/-- What is done at the token at the cursor. -/
def dispatch (cursor : Cursor) : Checked Cursor := do
  let token ← fetch tokens cursor.index
  match token.kind with
  | .keyword => readKeyword tokens cursor token
  | .identifier | .scope => readName tokens cursor
  | .punctuator => readPunctuator tokens cursor token
  | .number | .literal => cursor.skipTo (cursor.index + 1)

/-- Go through the tokens up to their end. -/
def run : Nat → Cursor → Checked Cursor
  | 0, _ => .error .endless
  | rounds + 1, cursor => do
      if cursor.index < tokens.length then run rounds (← dispatch tokens cursor) else return cursor

/-- What is found at the end, where all scopes but the file itself are left open. -/
def finish (cursor : Cursor) : Checked Outline := do
  let draft ← cursor.current
  return { draft.finish with unclosed := ← less cursor.frames.length }

/-- The outline of a text, read by index. -/
def outline (text : String) : Checked Outline := do
  let tokens := tokenize text
  finish (← run tokens (tokens.length + 1) (start (Text.byteLength text.toList)))

end Cursor

end Requalify
