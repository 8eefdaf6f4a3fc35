/-!
JSON as reports write it: each item of a list or record on a line of its own, two spaces further in
than what holds it, and fields in the order given.
-/

namespace Requalify

inductive JsonValue where
  | text (value : String)
  | number (value : Nat)
  | list (items : List JsonValue)
  | record (fields : List (String × JsonValue))

namespace JsonValue

def hexDigit (value : Nat) : Char :=
  "0123456789abcdef".toList.getD value '0'

/-- Quotes, backslashes and control characters are escaped, everything else stands for itself. -/
def escapedChar (c : Char) : List Char :=
  match c with
  | '"' => ['\\', '"']
  | '\\' => ['\\', '\\']
  | '\x08' => ['\\', 'b']
  | '\x0c' => ['\\', 'f']
  | '\n' => ['\\', 'n']
  | '\r' => ['\\', 'r']
  | '\t' => ['\\', 't']
  | _ =>
      if c.toNat < 32 then
        ['\\', 'u', '0', '0', hexDigit (c.toNat / 16), hexDigit (c.toNat % 16)]
      else [c]

def quoted (text : String) : String :=
  "\"" ++ String.ofList (text.toList.flatMap escapedChar) ++ "\""

def indented (depth : Nat) (line : String) : String :=
  String.ofList (List.replicate (2 * depth) ' ') ++ line

/-- Items between brackets that stand at the given depth; nothing stands between the brackets of an
empty collection. -/
def bracketed (left right : Char) (depth : Nat) (items : List String) : String :=
  if items.isEmpty then String.ofList [left, right]
  else
    String.singleton left ++ "\n" ++
      ",\n".intercalate (items.map (indented (depth + 1))) ++ "\n" ++
      indented depth (String.singleton right)

mutual

def write (depth : Nat) : JsonValue → String
  | .text value => quoted value
  | .number value => toString value
  | .list items => bracketed '[' ']' depth (writeItems (depth + 1) items)
  | .record fields => bracketed '\x7b' '\x7d' depth (writeFields (depth + 1) fields)

def writeItems (depth : Nat) : List JsonValue → List String
  | [] => []
  | item :: rest => write depth item :: writeItems depth rest

def writeFields (depth : Nat) : List (String × JsonValue) → List String
  | [] => []
  | (name, value) :: rest => (quoted name ++ ": " ++ write depth value) :: writeFields depth rest

end

/-- The lines of a whole document. -/
def document (value : JsonValue) : String :=
  write 0 value ++ "\n"

end JsonValue

end Requalify
