import Requalify.Toml.Scalar
import Requalify.Toml.Table

/-!
Reading TOML documents. Each reader takes something off the front of a text and gives what it has read
and the rest, or nothing if the text is malformed. Readers that call each other count down a bound on
their calls, which the length of the text sets.
-/

namespace Requalify.Toml

abbrev Reader (α : Type) := List Char → Option (α × List Char)

def isSpace (c : Char) : Bool :=
  c == ' ' || c == '\t'

def skipSpaces (text : List Char) : List Char :=
  text.dropWhile isSpace

/-- All but the controls; the tabulator is no control here. -/
def isTextChar (c : Char) : Bool :=
  c == '\t' || (' ' ≤ c && c != '\x7f')

/-- The text behind the end of a line, in front of which blanks and a comment may stand. -/
def lineEnd? (text : List Char) : Option (List Char) :=
  let rest := match skipSpaces text with
    | '#' :: comment => comment.dropWhile isTextChar
    | rest => rest
  match rest with
  | [] => some []
  | '\n' :: rest => some rest
  | '\r' :: '\n' :: rest => some rest
  | _ => none

/-- The text behind blanks, ends of lines and comments. -/
def skipLines : List Char → List Char
  | '\r' :: '\n' :: rest => skipLines rest
  | '#' :: rest => skipLines (rest.dropWhile isTextChar)
  | c :: rest => if isSpace c || c == '\n' then skipLines rest else c :: rest
  | [] => []
termination_by text => text.length
decreasing_by
  all_goals simp_wf
  all_goals have bound := (List.dropWhile_sublist isTextChar (l := rest)).length_le
  all_goals omega

/-! Strings. -/

def hexChar? (digits : List Char) : Option Char :=
  let value := valueOf 16 digits
  if digits.all isHexDigit && value.isValidChar then some (Char.ofNat value) else none

/-- The character of an escape behind its backslash, and how many characters the escape takes there. -/
def escape? : List Char → Option (Char × Nat)
  | 'b' :: _ => some ('\x08', 1)
  | 't' :: _ => some ('\t', 1)
  | 'n' :: _ => some ('\n', 1)
  | 'f' :: _ => some ('\x0c', 1)
  | 'r' :: _ => some ('\r', 1)
  | '"' :: _ => some ('"', 1)
  | '\\' :: _ => some ('\\', 1)
  | 'u' :: rest => if 4 ≤ rest.length then (hexChar? (rest.take 4)).map (·, 5) else none
  | 'U' :: rest => if 8 ≤ rest.length then (hexChar? (rest.take 8)).map (·, 9) else none
  | _ => none

/-- The rest of a quoted string; `passed` is latest first. -/
def quotedFrom (passed : List Char) : Reader String
  | [] => none
  | '"' :: rest => some (String.ofList passed.reverse, rest)
  | '\\' :: rest =>
      match escape? rest with
      | some (c, count) => quotedFrom (c :: passed) (rest.drop count)
      | none => none
  | c :: rest => if isTextChar c then quotedFrom (c :: passed) rest else none
termination_by text => text.length
decreasing_by all_goals simp only [List.length_drop, List.length_cons]; omega

def literalFrom (passed : List Char) : Reader String
  | [] => none
  | c :: rest =>
      if c = '\'' then some (String.ofList passed.reverse, rest)
      else if isTextChar c then literalFrom (c :: passed) rest
      else none

/-- The line feeds that a text of several lines contains, and the rest. -/
def lineFeed? : Reader Unit
  | '\n' :: rest => some ((), rest)
  | '\r' :: '\n' :: rest => some ((), rest)
  | _ => none

/-- Two marks may stand in front of the closing three. -/
def closing? (mark : Char) (text : List Char) : Option (List Char × List Char) :=
  let run := (text.takeWhile (· == mark)).length
  if run < 3 then none
  else
    let inside := min (run - 3) 2
    some (List.replicate inside mark, text.drop (inside + 3))

/-- The rest of a string of several lines. `mark` closes it, and the backslash is an escape between
double quotes only. A backslash at the end of a line joins it to the next text: while `joining`, blanks
and line ends do not count. -/
def linesFrom (mark : Char) (joining : Bool) (passed : List Char) (text : List Char) :
    Option (String × List Char) :=
  match closing? mark text with
  | some (inside, rest) => some (String.ofList (passed.reverse ++ inside), rest)
  | none =>
      match text with
      | [] => none
      | '\n' :: rest => linesFrom mark joining (if joining then passed else '\n' :: passed) rest
      | '\r' :: '\n' :: rest =>
          linesFrom mark joining (if joining then passed else '\n' :: passed) rest
      | c :: rest =>
          if joining && isSpace c then linesFrom mark true passed rest
          else if c = '\\' && mark = '"' then
            if (lineFeed? (skipSpaces rest)).isSome then linesFrom mark true passed rest
            else
              match escape? rest with
              | some (c, count) => linesFrom mark false (c :: passed) (rest.drop count)
              | none => none
          else if isTextChar c then linesFrom mark false (c :: passed) rest
          else none
termination_by text.length
decreasing_by all_goals simp only [List.length_drop, List.length_cons]; omega

/-- Drop the line end directly behind the opening marks. -/
def behindOpening (text : List Char) : List Char :=
  match lineFeed? text with
  | some (_, rest) => rest
  | none => text

def readString : Reader String
  | '"' :: '"' :: '"' :: rest => linesFrom '"' false [] (behindOpening rest)
  | '\'' :: '\'' :: '\'' :: rest => linesFrom '\'' false [] (behindOpening rest)
  | '"' :: rest => quotedFrom [] rest
  | '\'' :: rest => literalFrom [] rest
  | _ => none

/-! Keys. -/

def isBareChar (c : Char) : Bool :=
  c.isAlphanum || c == '_' || c == '-'

def readSimpleKey (text : List Char) : Option (String × List Char) :=
  match text with
  | '"' :: rest => quotedFrom [] rest
  | '\'' :: rest => literalFrom [] rest
  | _ =>
      let bare := text.takeWhile isBareChar
      if bare.isEmpty then none else some (String.ofList bare, text.drop bare.length)

/-- A dotted key: the keys in front of the last one, latest first, and the last one. -/
def readKeyFrom (bound : Nat) (passed : List String) (text : List Char) :
    Option ((List String × String) × List Char) :=
  match bound with
  | 0 => none
  | bound + 1 => do
      let (key, rest) ← readSimpleKey (skipSpaces text)
      match skipSpaces rest with
      | '.' :: rest => readKeyFrom bound (key :: passed) rest
      | rest => return ((passed.reverse, key), rest)

/-- Keys and values with this many levels, or more, are refused. -/
def levelLimit : Nat := 80

def readKey (text : List Char) : Option ((List String × String) × List Char) :=
  match readKeyFrom (text.length + 1) [] text with
  | some ((path, key), rest) =>
      if path.length + 1 < levelLimit then some ((path, key), rest) else none
  | none => none

/-! Values. -/

/-- A number, a date or one of the words. A time may stand behind a date and a blank. -/
def readScalar (text : List Char) : Option (Data × List Char) :=
  let word := text.takeWhile isNumberChar
  let rest := text.drop word.length
  if word == ['t', 'r', 'u', 'e'] || word == ['f', 'a', 'l', 's', 'e'] then some (.scalar, rest)
  else if isDate word then
    match rest with
    | ' ' :: behind =>
        let time := behind.takeWhile isNumberChar
        if time.isEmpty then some (.date, rest)
        else if isZonedTime time then some (.date, behind.drop time.length)
        else none
    | _ => some (.date, rest)
  else if isMoment word then some (.date, rest)
  else if isInteger word || isFloat word then some (.scalar, rest)
  else none

mutual

/-- Read a value that stands inside `level` lists and tables in braces. -/
def readValue (bound level : Nat) (text : List Char) : Option (Data × List Char) :=
  match bound with
  | 0 => none
  | bound + 1 =>
      match text with
      | '"' :: _ => (readString text).map fun (value, rest) => (.text value, rest)
      | '\'' :: _ => (readString text).map fun (value, rest) => (.text value, rest)
      | '[' :: rest => if level + 1 < levelLimit then readItems bound (level + 1) [] rest else none
      | '\x7b' :: rest => if level + 1 < levelLimit then readBraces bound (level + 1) rest else none
      | _ => readScalar text

/-- The rest of a list; a comma may stand behind the last item. -/
def readItems (bound level : Nat) (items : List Data) (text : List Char) :
    Option (Data × List Char) :=
  match bound with
  | 0 => none
  | bound + 1 =>
      match skipLines text with
      | ']' :: rest => some (.list items.reverse, rest)
      | text => do
          let (item, rest) ← readValue bound level text
          match skipLines rest with
          | ',' :: rest => readItems bound level (item :: items) rest
          | ']' :: rest => return (.list (item :: items).reverse, rest)
          | _ => none

/-- The rest of a table in braces, which stands on one line. -/
def readBraces (bound level : Nat) (text : List Char) : Option (Data × List Char) :=
  match bound with
  | 0 => none
  | bound + 1 =>
      match skipSpaces text with
      | '\x7d' :: rest => some (.table [], rest)
      | rest => readPairs bound level Table.empty rest

/-- The rest of a table in braces from one of its keys on. -/
def readPairs (bound level : Nat) (table : Table) (text : List Char) : Option (Data × List Char) :=
  match bound with
  | 0 => none
  | bound + 1 => do
      let ((path, key), rest) ← readKey text
      match rest with
      | '=' :: rest =>
          let (value, rest) ← readValue bound level (skipSpaces rest)
          let table ← table.addValue path key value
          match skipSpaces rest with
          | ',' :: rest => readPairs bound level table rest
          | '\x7d' :: rest => return (table.data, rest)
          | _ => none
      | _ => none

end

/-! Documents. -/

/-- Read the rest of a document line by line; keys belong to the table at `current`. -/
def readLines (bound : Nat) (document : Table) (current : List String) (text : List Char) :
    Option Table :=
  match bound with
  | 0 => none
  | bound + 1 =>
      match skipSpaces text with
      | [] => some document
      | '[' :: '[' :: rest => do
          let ((path, key), rest) ← readKey rest
          match rest with
          | ']' :: ']' :: rest =>
              let document ← document.addElement path key
              readLines bound document (path ++ [key]) (← lineEnd? rest)
          | _ => none
      | '[' :: rest => do
          let ((path, key), rest) ← readKey rest
          match rest with
          | ']' :: rest =>
              let document ← document.addHeader path key
              readLines bound document (path ++ [key]) (← lineEnd? rest)
          | _ => none
      | '#' :: rest => do readLines bound document current (← lineEnd? ('#' :: rest))
      | '\n' :: rest => readLines bound document current rest
      | '\r' :: '\n' :: rest => readLines bound document current rest
      | text => do
          let ((path, key), rest) ← readKey text
          match rest with
          | '=' :: rest =>
              let (value, rest) ← readValue (3 * rest.length + 3) 0 (skipSpaces rest)
              let document ← document.modifyAt false (·.addValue path key value) current
              readLines bound document current (← lineEnd? rest)
          | _ => none

/-- The top table of a document. A byte order mark in front of it does not count. -/
def read? (text : String) : Option Data :=
  let text := match text.toList with
    | '\ufeff' :: rest => rest
    | text => text
  (readLines (text.length + 1) Table.empty [] text).map (·.data)

end Requalify.Toml
