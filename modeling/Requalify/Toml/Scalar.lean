/-!
Numbers and dates of TOML. Both are written without blanks, except for the one that may stand between a
date and a time. Their values are not needed, only whether they are well formed and in range.
-/

namespace Requalify.Toml

def isNumberChar (c : Char) : Bool :=
  c.isAlphanum || c == '_' || c == '+' || c == '-' || c == '.' || c == ':'

/-- Digits with single underscores between them. -/
def isDigits (isDigit : Char → Bool) : List Char → Bool
  | [] => false
  | [c] => isDigit c
  | c :: '_' :: rest => isDigit c && isDigits isDigit rest
  | c :: rest => isDigit c && isDigits isDigit rest

def isHexDigit (c : Char) : Bool :=
  c.isDigit || ('a' ≤ c && c ≤ 'f') || ('A' ≤ c && c ≤ 'F')

def digitValue (c : Char) : Nat :=
  if c.isDigit then c.toNat - '0'.toNat
  else if 'a' ≤ c then c.toNat - 'a'.toNat + 10
  else c.toNat - 'A'.toNat + 10

def valueOf (base : Nat) (digits : List Char) : Nat :=
  (digits.filter (· != '_')).foldl (fun value c => value * base + digitValue c) 0

/-- The largest integer: 63 bits that are one. -/
def largest : Nat := 0x7fffffffffffffff

/-- Decimal digits without a zero in front of others. -/
def isDecimal (digits : List Char) : Bool :=
  isDigits Char.isDigit digits && (digits.head? != some '0' || digits.length == 1)

/-- Digits of a base, for a number that fits into 64 bits. -/
def isBased (base : Nat) (isDigit : Char → Bool) (digits : List Char) : Bool :=
  isDigits isDigit digits && valueOf base digits ≤ largest

def isInteger : List Char → Bool
  | '0' :: 'x' :: digits => isBased 16 isHexDigit digits
  | '0' :: 'o' :: digits => isBased 8 (fun c => '0' ≤ c && c ≤ '7') digits
  | '0' :: 'b' :: digits => isBased 2 (fun c => c == '0' || c == '1') digits
  | '+' :: digits => isDecimal digits && valueOf 10 digits ≤ largest
  | '-' :: digits => isDecimal digits && valueOf 10 digits ≤ largest + 1
  | digits => isDecimal digits && valueOf 10 digits ≤ largest

def unsigned : List Char → List Char
  | '+' :: rest => rest
  | '-' :: rest => rest
  | text => text

/-- A number in decimal notation: all its digits, and the power of ten that they are multiplied by. -/
structure Decimal where
  digits : List Char
  exponent : Int

namespace Decimal

/-- The least number that is too large for a float of 64 bits: it lies halfway between the largest one
and the next power of two. -/
def bound : Nat := (1 <<< 1024) - (1 <<< 970)

/-- How many digits `bound` has. -/
def boundLength : Nat := 309

/-- The number is not less than `bound`. -/
def isTooLarge (decimal : Decimal) : Bool :=
  let digits := decimal.digits.dropWhile (· == '0')
  let length := digits.length + decimal.exponent
  if digits.isEmpty || length < boundLength then false
  else if boundLength < length then true
  else
    let whole := (digits ++ List.replicate boundLength '0').take boundLength
    bound ≤ valueOf 10 whole

end Decimal

def readExponent? (text : List Char) : Option Int :=
  let digits := unsigned text
  if !isDigits Char.isDigit digits then none
  else if text.head? = some '-' then some (-valueOf 10 digits)
  else some (valueOf 10 digits)

/-- An exponent behind its mark, or nothing at all. -/
def readScale? : List Char → Option Int
  | [] => some 0
  | mark :: exponent => if mark == 'e' || mark == 'E' then readExponent? exponent else none

def isDigitOrBar (c : Char) : Bool :=
  c.isDigit || c == '_'

/-- A decimal with a point or an exponent, or both. -/
def readDecimal? (text : List Char) : Option Decimal :=
  let whole := text.takeWhile isDigitOrBar
  if !isDecimal whole then none
  else
    match text.drop whole.length with
    | [] => none
    | '.' :: rest =>
        let fraction := rest.takeWhile isDigitOrBar
        if !isDigits Char.isDigit fraction then none
        else
          let places := fraction.filter (· != '_')
          (readScale? (rest.drop fraction.length)).map fun scale =>
            ⟨whole.filter (· != '_') ++ places, scale - places.length⟩
    | rest => (readScale? rest).map fun scale => ⟨whole.filter (· != '_'), scale⟩

/-- A number that is too large is refused, but one that lies as far below zero is not. -/
def isFloat (text : List Char) : Bool :=
  let number := unsigned text
  if number == ['i', 'n', 'f'] || number == ['n', 'a', 'n'] then true
  else
    match readDecimal? number with
    | some decimal => text.head? == some '-' || !decimal.isTooLarge
    | none => false

/-- The value of exactly `count` digits, if nothing else is there. -/
def fixedDigits? (count : Nat) (text : List Char) : Option Nat :=
  if text.length = count && text.all Char.isDigit then some (valueOf 10 text) else none

def daysIn (year month : Nat) : Nat :=
  if month = 2 then
    if year % 4 = 0 && (year % 100 != 0 || year % 400 = 0) then 29 else 28
  else if month = 4 || month = 6 || month = 9 || month = 11 then 30
  else 31

/-- A day such as `1979-05-27`. -/
def isDate (text : List Char) : Bool :=
  match fixedDigits? 4 (text.take 4), fixedDigits? 2 ((text.drop 5).take 2),
      fixedDigits? 2 ((text.drop 8).take 2) with
  | some year, some month, some day =>
      text.length == 10 && text[4]? == some '-' && text[7]? == some '-' && 1 ≤ month && month ≤ 12 &&
        1 ≤ day && day ≤ daysIn year month
  | _, _, _ => false

def isClock (text : List Char) : Bool :=
  match fixedDigits? 2 (text.take 2), fixedDigits? 2 (text.drop 3) with
  | some hour, some minute => text[2]? == some ':' && hour ≤ 23 && minute ≤ 59
  | _, _ => false

/-- A time such as `07:32:00.5`; a leap second is allowed. -/
def isTime (text : List Char) : Bool :=
  isClock (text.take 5) && text[5]? == some ':' &&
    match fixedDigits? 2 ((text.drop 6).take 2) with
    | some second =>
        second ≤ 60 &&
          match text.drop 8 with
          | [] => true
          | '.' :: digits => !digits.isEmpty && digits.all Char.isDigit
          | _ => false
    | none => false

/-- A time, and the offset from universal time if there is one. -/
def isZonedTime (text : List Char) : Bool :=
  let time := text.takeWhile fun c => c.isDigit || c == ':' || c == '.'
  isTime time &&
    match text.drop time.length with
    | [] => true
    | ['Z'] => true
    | ['z'] => true
    | '+' :: zone => isClock zone
    | '-' :: zone => isClock zone
    | _ => false

/-- A day, a time, or both. -/
def isMoment (text : List Char) : Bool :=
  isDate text || isTime text ||
    (isDate (text.take 10) && (text[10]? == some 'T' || text[10]? == some 't') &&
      isZonedTime (text.drop 11))

end Requalify.Toml
