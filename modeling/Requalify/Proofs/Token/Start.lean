import Mathlib.Tactic.ByContra
import Requalify.Proofs.Token.Scan

/-!
What the first characters of a text tell about its first piece: a gap, a name or the literal it is the
prefix of, a number, a quoted literal, or a punctuator.
-/

namespace Requalify

namespace Piece

/-- No token begins here. -/
def BeginsGap (fresh : Bool) (c : Char) (next : Option Char) : Prop :=
  Text.isAsciiBlank c = true ∨ (c = '/' ∧ (next = some '/' ∨ next = some '*')) ∨
    (c = '#' ∧ fresh = true)

section First

variable {fresh : Bool} {c : Char} {rest : List Char} {kind : TokenKind} {more : Nat}

theorem first_eq_ofToken (isToken : ¬BeginsGap fresh c rest.head?) :
    first fresh c rest = ofToken c rest := by
  simp only [BeginsGap, not_or, not_and] at isToken
  obtain ⟨blank, comment, directive⟩ := isToken
  unfold first
  rw [if_neg blank]
  split
  next => simp at comment
  next => simp at comment
  next =>
    have plain : (c = '#' && fresh) = false := by simpa using directive
    simp [plain]

theorem not_beginsGap (isToken : first fresh c rest = .token kind more) :
    ¬BeginsGap fresh c rest.head? := by
  rintro (blank | ⟨rfl, comment⟩ | ⟨rfl, rfl⟩)
  · simp [first, blank] at isToken
  · rcases comment with line | block
    · obtain ⟨others, rfl⟩ := List.head?_eq_some_iff.mp line
      simp [first, Text.isAsciiBlank] at isToken
    · obtain ⟨others, rfl⟩ := List.head?_eq_some_iff.mp block
      simp [first, Text.isAsciiBlank] at isToken
  · simp [first, Text.isAsciiBlank] at isToken

theorem isNamePart_of_nameStart (start : isNameStart c = true) : isNamePart c = true := by
  simp only [isNameStart, isNamePart, Char.isAlphanum, Bool.or_eq_true] at start ⊢
  grind

theorem first_of_nameStart (start : isNameStart c = true) : first fresh c rest = ofName c rest := by
  have isToken : ¬BeginsGap fresh c rest.head? := by
    rintro (blank | ⟨rfl, -⟩ | ⟨rfl, -⟩)
    · have nonblank := nonblank_of_joinsWord (joinsWord_of_namePart (isNamePart_of_nameStart start))
      simp [nonblank] at blank
    · exact absurd start (by decide)
    · exact absurd start (by decide)
  rw [first_eq_ofToken isToken]
  exact if_pos start

/-- A number begins here. -/
def BeginsNumber (c : Char) (next : Option Char) : Prop :=
  c.isDigit = true ∨ (c = '.' ∧ next.any Char.isDigit = true)

/-- A punctuator begins here. -/
structure BeginsMark (fresh : Bool) (c : Char) (next : Option Char) : Prop where
  token : ¬BeginsGap fresh c next
  name : isNameStart c = false
  number : ¬BeginsNumber c next
  literal : c ≠ '"' ∧ c ≠ '\''
  scope : ¬(c = ':' ∧ next = some ':')

theorem joinsWord_of_digit (digit : c.isDigit = true) : joinsWord c = true := by
  simp [joinsWord, isNamePart, Char.isAlphanum, digit]

theorem isNameStart_of_digit (digit : c.isDigit = true) : isNameStart c = false := by
  simp only [Char.isDigit, Bool.and_eq_true, decide_eq_true_eq, ge_iff_le] at digit
  delta isNameStart Char.isAlpha Char.isUpper Char.isLower Char.toNat
  simp [UInt32.le_iff_toNat_le] at digit ⊢
  refine ⟨⟨by omega, ?_⟩, by omega⟩
  rintro rfl
  simp at digit

theorem joinsWord_of_beginsNumber {next : Option Char} (begins : BeginsNumber c next) :
    joinsWord c = true := by
  rcases begins with digit | ⟨rfl, -⟩
  · exact joinsWord_of_digit digit
  · rfl

theorem isNameStart_of_beginsNumber {next : Option Char} (begins : BeginsNumber c next) :
    isNameStart c = false := by
  rcases begins with digit | ⟨rfl, -⟩
  · exact isNameStart_of_digit digit
  · rfl

theorem first_of_number (begins : BeginsNumber c rest.head?) :
    first fresh c rest = .token .number (numberLength c 0 rest) := by
  have isToken : ¬BeginsGap fresh c rest.head? := by
    rintro (blank | ⟨rfl, -⟩ | ⟨rfl, -⟩)
    · simp [nonblank_of_joinsWord (joinsWord_of_beginsNumber begins)] at blank
    · exact absurd begins (by simp [BeginsNumber])
    · exact absurd begins (by simp [BeginsNumber])
  have number : (c.isDigit || (c == '.' && rest.head?.any Char.isDigit)) = true := by
    simpa [BeginsNumber] using begins
  rw [first_eq_ofToken isToken]
  unfold ofToken
  rw [if_neg (by simp [isNameStart_of_beginsNumber begins]), if_pos number]

theorem first_of_quote (mark : c = '"' ∨ c = '\'') :
    first fresh c rest = .token .literal (withSuffix (quotedLength c 0 rest) rest) := by
  rcases mark with rfl | rfl
  · rfl
  · rfl

theorem first_of_mark (begins : BeginsMark fresh c rest.head?) :
    first fresh c rest = ofPunctuator (c :: rest) := by
  have number : ¬(c.isDigit || (c == '.' && rest.head?.any Char.isDigit)) = true := by
    simpa [BeginsNumber] using begins.number
  rw [first_eq_ofToken begins.token]
  unfold ofToken
  rw [if_neg (by simp [begins.name]), if_neg number, if_neg (by simpa using begins.literal)]
  split
  next => exact absurd ⟨rfl, rfl⟩ begins.scope
  next => rfl

/-- Identifiers and keywords begin like names. -/
theorem isNameStart_of_word (word : kind = .identifier ∨ kind = .keyword)
    (isWord : first fresh c rest = .token kind more) : isNameStart c = true := by
  by_contra start
  rw [first_eq_ofToken (not_beginsGap isWord)] at isWord
  unfold ofToken at isWord
  rw [if_neg start] at isWord
  obtain ⟨other, length, piece, plain⟩ : ∃ other length, Piece.token other length = .token kind more ∧
      ¬(other = .identifier ∨ other = .keyword) := by
    split at isWord
    next => exact ⟨_, _, isWord, by simp⟩
    next =>
      split at isWord
      next => exact ⟨_, _, isWord, by simp⟩
      next =>
        split at isWord
        next => exact ⟨_, _, isWord, by simp⟩
        next =>
          unfold ofPunctuator at isWord
          split at isWord
          next => exact ⟨_, _, isWord, by simp⟩
          next => exact ⟨_, _, isWord, by simp⟩
  exact plain ((Piece.token.inj piece).1 ▸ word)

end First

section Name

def wordKind (name : String) : TokenKind :=
  if keywords.contains name then .keyword else .identifier

/-- How long a literal is behind the mark that follows `name`, if the two begin one. -/
def literalLength? (name : String) (mark : Char) : Option (List Char → Nat) :=
  if mark = '"' then
    if rawPrefixes.contains name then some rawLength
    else if encodingPrefixes.contains name then some (quotedLength '"' 0)
    else none
  else if mark = '\'' then
    if encodingPrefixes.contains name then some (quotedLength '\'' 0) else none
  else none

theorem literalLength?_cases {name : String} {mark : Char} {length : List Char → Nat}
    (found : literalLength? name mark = some length) :
    (mark = '"' ∧ rawPrefixes.contains name = true ∧ length = rawLength) ∨
      (mark = '"' ∧ rawPrefixes.contains name = false ∧ encodingPrefixes.contains name = true ∧
        length = quotedLength '"' 0) ∨
      (mark = '\'' ∧ encodingPrefixes.contains name = true ∧ length = quotedLength '\'' 0) := by
  unfold literalLength? at found
  split at found
  next isMark =>
    split at found
    next raw => exact .inl ⟨isMark, raw, (Option.some.inj found).symm⟩
    next notRaw =>
      split at found
      next encoded =>
        exact .inr (.inl ⟨isMark, by simpa using notRaw, encoded, (Option.some.inj found).symm⟩)
      next => simp at found
  next =>
    split at found
    next isMark =>
      split at found
      next encoded => exact .inr (.inr ⟨isMark, encoded, (Option.some.inj found).symm⟩)
      next => simp at found
    next => simp at found

theorem mark_of_literalLength? {name : String} {mark : Char} {length : List Char → Nat}
    (found : literalLength? name mark = some length) :
    joinsWord mark = true ∧ isNamePart mark = false := by
  rcases literalLength?_cases found with ⟨rfl, -⟩ | ⟨rfl, -⟩ | ⟨rfl, -⟩
  · decide
  · decide
  · decide

theorem closes_of_literalLength? {name : String} {mark : Char} {length : List Char → Nat}
    (found : literalLength? name mark = some length) {body after : List Char}
    (fits : length (body ++ after) = body.length) : after = [] ∨ Closes length mark body after := by
  rcases literalLength?_cases found with ⟨rfl, -, rfl⟩ | ⟨rfl, -, -, rfl⟩ | ⟨rfl, -, rfl⟩
  · exact rawLength_closes fits
  · exact quotedLength_closes (by decide) fits
  · exact quotedLength_closes (by decide) fits

variable {c : Char} {front behind : List Char} (parts : ∀ d ∈ front, isNamePart d = true)

include parts

theorem ofName_literal {mark : Char} {length : List Char → Nat}
    (found : literalLength? (String.ofList (c :: front)) mark = some length) :
    ofName c (front ++ mark :: behind) =
      .token .literal (front.length + 1 + withSuffix (length behind) behind) := by
  have size : nameLength (front ++ mark :: behind) = front.length :=
    nameLength_append.mpr ⟨parts, (mark_of_literalLength? found).2⟩
  simp only [ofName, size, List.take_left, List.drop_left]
  rcases literalLength?_cases found with ⟨rfl, raw, rfl⟩ | ⟨rfl, raw, encoded, rfl⟩ | ⟨rfl, encoded, rfl⟩
  · simp only [raw, if_true]
  · simp only [raw, encoded, if_true, Bool.false_eq_true, if_false]
  · simp only [encoded, if_true]

/-- A name that begins no literal. -/
theorem ofName_word (apart : behind.head?.any isNamePart = false)
    (plain : ∀ mark, behind.head? = some mark → literalLength? (String.ofList (c :: front)) mark = none) :
    ofName c (front ++ behind) = .token (wordKind (String.ofList (c :: front))) front.length := by
  have size : nameLength (front ++ behind) = front.length := nameLength_append.mpr ⟨parts, apart⟩
  simp only [ofName, size, List.take_left, List.drop_left]
  split
  next after =>
    have none := plain '"' rfl
    unfold literalLength? at none
    grind [wordKind]
  next after =>
    have none := plain '\'' rfl
    unfold literalLength? at none
    grind [wordKind]
  next => rfl

end Name

end Piece

end Requalify
