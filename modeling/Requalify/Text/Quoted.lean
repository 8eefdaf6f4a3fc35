import Requalify.Text.Printable

/-!
Quoted text, as messages and fix-its show it: between double quotes, with a backslash before quotes
and backslashes, short names for the usual controls, and numbers for all else that has no visible form.
-/

namespace Requalify.Text

/-- Hexadecimal digits in lower case, without leading zeros. -/
def hexadecimal (value : Nat) : List Char :=
  Nat.toDigits 16 value

def quotedChar (c : Char) : List Char :=
  if c = '"' then ['\\', '"']
  else if c = '\\' then ['\\', '\\']
  else if c = '\n' then ['\\', 'n']
  else if c = '\r' then ['\\', 'r']
  else if c = '\t' then ['\\', 't']
  else if c = '\x00' then ['\\', '0']
  else if isPrintable c then [c]
  else ['\\', 'u', '\x7b'] ++ hexadecimal c.toNat ++ ['\x7d']

def quoted (text : String) : String :=
  String.ofList ('"' :: text.toList.flatMap quotedChar ++ ['"'])

end Requalify.Text
