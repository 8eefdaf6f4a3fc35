import Requalify.Proofs.Text.Encoding
import Requalify.Proofs.Text.Removal

/-!
Removals of several statements, in the bytes of a text. What a removal takes in front of its statement are
spaces and tabs, and what it takes behind it are spaces, tabs and at most one line terminator. Two removals do
not meet, although neither is grown with regard to the other: the later one grows only as far back as its line
begins, and the earlier one has taken no more than the line feed in front of that.
-/

namespace Requalify.Text

def carriageReturn : UInt8 := 13

def isBlankByte (byte : UInt8) : Bool :=
  byte == 32 || byte == 9

/-- How many bytes before the statement go with it; `before` is nearest first. -/
def leadingBytes (before : List UInt8) : Nat :=
  match before.dropWhile isBlankByte with
  | [] => (before.takeWhile isBlankByte).length
  | byte :: _ => if byte = lineFeed then (before.takeWhile isBlankByte).length else 0

/-- How many bytes after the statement go with it. -/
def trailingBytes (after : List UInt8) : Nat :=
  match after.dropWhile isBlankByte with
  | [] => (after.takeWhile isBlankByte).length
  | byte :: rest =>
      if byte = lineFeed then (after.takeWhile isBlankByte).length + 1
      else if byte = carriageReturn ∧ rest.head? = some lineFeed then (after.takeWhile isBlankByte).length + 2
      else 0

/-- The span to remove, found in the bytes of the text. -/
def expandBytes (content : List UInt8) (statement : Span) : Span :=
  let first := min statement.start content.length
  let last := max first (min statement.stop content.length)
  Span.between (first - leadingBytes (content.take first).reverse) (last + trailingBytes (content.drop last))

/-! The bytes and the characters of a text. -/

theorem reflects_blank : Reflects isBlankByte isHorizontal := by
  intro c byte member
  have space : byte = 32 ↔ c = ' ' := @byte_eq_iff c ' ' rfl byte member
  have tab : byte = 9 ↔ c = '\t' := @byte_eq_iff c '\t' rfl byte member
  rw [Bool.eq_iff_iff, isBlankByte, isHorizontal, Bool.or_eq_true, Bool.or_eq_true, beq_iff_eq, beq_iff_eq,
    beq_iff_eq, beq_iff_eq, space, tab]

theorem lineFeed_iff {c : Char} {byte : UInt8} (member : byte ∈ String.utf8EncodeChar c) :
    byte = lineFeed ↔ c = '\n' :=
  @byte_eq_iff c '\n' rfl byte member

theorem carriageReturn_iff {c : Char} {byte : UInt8} (member : byte ∈ String.utf8EncodeChar c) :
    byte = carriageReturn ↔ c = '\r' :=
  @byte_eq_iff c '\r' rfl byte member

theorem length_encoded_blanks (text : List Char) :
    (encoded (text.takeWhile isHorizontal)).length = (text.takeWhile isHorizontal).length := by
  rw [length_encoded]
  exact byteLength_of_narrow fun _ member => utf8Size_of_horizontal (List.mem_takeWhile_imp member)

theorem leadingBytes_encoded (before : List Char) :
    leadingBytes (encoded before).reverse = leadingBlanks before.reverse := by
  have blanks : ((encoded before).reverse.takeWhile isBlankByte).length =
      (before.reverse.takeWhile isHorizontal).length := by
    rw [reflects_blank.takeWhile_reverse, List.length_reverse, length_encoded, byteLength_reverse,
      ← length_encoded, length_encoded_blanks]
  simp only [leadingBytes, leadingBlanks, reflects_blank.dropWhile_reverse, blanks, ← dropWhile_eq_drop]
  cases before.reverse.dropWhile isHorizontal with
  | nil => rfl
  | cons c others =>
      have last : (encoded (c :: others).reverse).reverse =
          (String.utf8EncodeChar c).reverse ++ (encoded others.reverse).reverse := by
        simp
      obtain ⟨byte, more, parts⟩ := List.exists_cons_of_ne_nil
        (show (String.utf8EncodeChar c).reverse ≠ [] by simp)
      have member : byte ∈ String.utf8EncodeChar c := List.mem_reverse.mp (by simp [parts])
      rw [last, parts]
      simp only [List.cons_append, lineFeed_iff member]

theorem trailingBlanks_eq (after : List Char) :
    trailingBlanks after = match after.dropWhile isHorizontal with
      | [] => (after.takeWhile isHorizontal).length
      | c :: rest =>
          if c = '\n' then (after.takeWhile isHorizontal).length + 1
          else if c = '\r' ∧ rest.head? = some '\n' then (after.takeWhile isHorizontal).length + 2
          else 0 := by
  simp only [trailingBlanks, ← dropWhile_eq_drop]
  split
  next nothing => rw [nothing]
  next rest feed =>
    rw [feed]
    exact (if_pos rfl).symm
  next rest return_ =>
    rw [return_]
    exact ((if_neg (by decide)).trans (if_pos ⟨rfl, rfl⟩)).symm
  next nothing feed return_ =>
    cases found : after.dropWhile isHorizontal with
    | nil => exact absurd found nothing
    | cons c rest =>
        dsimp only
        rw [if_neg, if_neg]
        · rintro ⟨rfl, next⟩
          obtain ⟨others, rfl⟩ := List.head?_eq_some_iff.mp next
          exact return_ others found
        · rintro rfl
          exact feed rest found

theorem head?_encoded_eq_lineFeed {text : List Char} :
    (encoded text).head? = some lineFeed ↔ text.head? = some '\n' := by
  cases text with
  | nil => simp
  | cons c rest =>
      obtain ⟨byte, more, parts⟩ := List.exists_cons_of_ne_nil (@String.utf8EncodeChar_ne_nil c)
      have member : byte ∈ String.utf8EncodeChar c := by simp [parts]
      rw [encoded_cons, parts, List.cons_append, List.head?_cons, List.head?_cons, Option.some.injEq,
        Option.some.injEq, lineFeed_iff member]

theorem trailingBytes_encoded (after : List Char) :
    trailingBytes (encoded after) = trailingBlanks after := by
  rw [trailingBlanks_eq, trailingBytes, reflects_blank.dropWhile, reflects_blank.takeWhile,
    length_encoded_blanks]
  cases after.dropWhile isHorizontal with
  | nil => rfl
  | cons c rest =>
      obtain ⟨byte, more, parts⟩ := List.exists_cons_of_ne_nil (@String.utf8EncodeChar_ne_nil c)
      have member : byte ∈ String.utf8EncodeChar c := by simp [parts]
      have return_ : byte = carriageReturn ∧ (more ++ encoded rest).head? = some lineFeed ↔
          c = '\r' ∧ rest.head? = some '\n' := by
        rw [carriageReturn_iff member]
        refine and_congr_right fun isReturn => ?_
        subst isReturn
        obtain rfl : more = [] := (List.cons.inj parts).2.symm
        exact head?_encoded_eq_lineFeed
      rw [encoded_cons, parts]
      simp only [List.cons_append, lineFeed_iff member, return_]

/-! Offsets inside a character. -/

theorem exists_cut {text : List Char} {offset : Nat} (inside : offset ≤ byteLength text)
    (cuts : isBoundary text offset = false) :
    ∃ before c after, text = before ++ c :: after ∧ byteLength before < offset ∧
      offset < byteLength before + c.utf8Size := by
  induction text generalizing offset with
  | nil =>
      obtain rfl : offset = 0 := Nat.le_zero.mp inside
      simp [isBoundary, splitAt?, splitFrom] at cuts
  | cons c rest ih =>
      have positive : 0 < offset := by
        rw [Nat.pos_iff_ne_zero]
        rintro rfl
        simp [isBoundary, splitAt?, splitFrom] at cuts
      rw [byteLength_cons] at inside
      by_cases within : offset < c.utf8Size
      · exact ⟨[], c, rest, rfl, by simpa using positive, by simpa using within⟩
      · have further : isBoundary rest (offset - c.utf8Size) = false := by
          by_contra boundary
          rw [Bool.not_eq_false, isBoundary_iff] at boundary
          obtain ⟨before, after, rfl, size⟩ := boundary
          have here : isBoundary (c :: (before ++ after)) offset = true :=
            isBoundary_iff.mpr ⟨c :: before, after, rfl, by rw [byteLength_cons]; omega⟩
          simp [here] at cuts
        obtain ⟨before, d, after, rfl, below, above⟩ := ih (by omega) further
        exact ⟨c :: before, d, after, rfl, by rw [byteLength_cons]; omega, by rw [byteLength_cons]; omega⟩

theorem wide_byte {c : Char} {byte : UInt8} (wide : c.utf8Size ≠ 1)
    (member : byte ∈ String.utf8EncodeChar c) :
    isBlankByte byte = false ∧ byte ≠ lineFeed ∧ byte ≠ carriageReturn := by
  have large := le_of_wide wide member
  refine ⟨?_, ?_, ?_⟩
  · rw [isBlankByte, Bool.or_eq_false_iff, beq_eq_false_iff_ne, beq_eq_false_iff_ne]
    constructor
    · rintro rfl
      exact absurd large (by decide)
    · rintro rfl
      exact absurd large (by decide)
  · rintro rfl
    exact absurd large (by decide)
  · rintro rfl
    exact absurd large (by decide)

theorem leadingBytes_of_other {byte : UInt8} (other : isBlankByte byte = false) (feed : byte ≠ lineFeed)
    (rest : List UInt8) : leadingBytes (byte :: rest) = 0 := by
  rw [leadingBytes, List.dropWhile_cons_of_neg (by simp [other])]
  exact if_neg feed

theorem trailingBytes_of_other {byte : UInt8} (other : isBlankByte byte = false) (feed : byte ≠ lineFeed)
    (return_ : byte ≠ carriageReturn) (rest : List UInt8) : trailingBytes (byte :: rest) = 0 := by
  rw [trailingBytes, List.dropWhile_cons_of_neg (by simp [other])]
  exact (if_neg feed).trans (if_neg fun both => return_ both.1)

section Cut

variable {text : List Char} {offset : Nat} (inside : offset ≤ byteLength text)
  (cuts : isBoundary text offset = false)

include inside cuts

theorem leadingBytes_cut : leadingBytes ((encoded text).take offset).reverse = 0 := by
  obtain ⟨before, c, after, rfl, below, above⟩ := exists_cut inside cuts
  have taken : (encoded (before ++ c :: after)).take offset =
      encoded before ++ (String.utf8EncodeChar c).take (offset - byteLength before) := by
    rw [encoded_append, encoded_cons, List.take_append, length_encoded, List.take_of_length_le (by simp; omega),
      List.take_append_of_le_length (by rw [String.length_utf8EncodeChar]; omega)]
  have filled : (String.utf8EncodeChar c).take (offset - byteLength before) ≠ [] := by
    intro empty
    have size := congrArg List.length empty
    rw [List.length_take, String.length_utf8EncodeChar, List.length_nil] at size
    omega
  obtain ⟨front, byte, parts⟩ := List.eq_nil_or_concat _ |>.resolve_left filled
  rw [List.concat_eq_append] at parts
  have member : byte ∈ String.utf8EncodeChar c := List.mem_of_mem_take (by rw [parts]; simp)
  obtain ⟨other, feed, -⟩ := wide_byte (by omega) member
  rw [taken, parts, List.reverse_append, List.reverse_append, List.reverse_singleton, List.singleton_append,
    List.cons_append]
  exact leadingBytes_of_other other feed _

theorem trailingBytes_cut : trailingBytes ((encoded text).drop offset) = 0 := by
  obtain ⟨before, c, after, rfl, below, above⟩ := exists_cut inside cuts
  have dropped : (encoded (before ++ c :: after)).drop offset =
      (String.utf8EncodeChar c).drop (offset - byteLength before) ++ encoded after := by
    rw [encoded_append, encoded_cons, List.drop_append, length_encoded, List.drop_of_length_le (by simp; omega),
      List.nil_append, List.drop_append_of_le_length (by rw [String.length_utf8EncodeChar]; omega)]
  have filled : (String.utf8EncodeChar c).drop (offset - byteLength before) ≠ [] := by
    intro empty
    have size := congrArg List.length empty
    rw [List.length_drop, String.length_utf8EncodeChar, List.length_nil] at size
    omega
  obtain ⟨byte, rest, parts⟩ := List.exists_cons_of_ne_nil filled
  have member : byte ∈ String.utf8EncodeChar c := List.mem_of_mem_drop (by rw [parts]; simp)
  obtain ⟨other, feed, return_⟩ := wide_byte (by omega) member
  rw [dropped, parts, List.cons_append]
  exact trailingBytes_of_other other feed return_ _

end Cut

theorem leadingBytes_at {text : List Char} {offset : Nat} (inside : offset ≤ byteLength text) :
    leadingBytes ((encoded text).take offset).reverse =
      ((splitAt? text offset).map fun parts => leadingBlanks parts.1.reverse).getD 0 := by
  cases split : splitAt? text offset with
  | none => exact leadingBytes_cut inside (by simp [isBoundary, split])
  | some parts =>
      obtain ⟨rfl, rfl⟩ := splitAt?_eq_some_iff.mp split
      rw [take_encoded, leadingBytes_encoded, Option.map_some, Option.getD_some]

theorem trailingBytes_at {text : List Char} {offset : Nat} (inside : offset ≤ byteLength text) :
    trailingBytes ((encoded text).drop offset) =
      ((splitAt? text offset).map fun parts => trailingBlanks parts.2).getD 0 := by
  cases split : splitAt? text offset with
  | none => exact trailingBytes_cut inside (by simp [isBoundary, split])
  | some parts =>
      obtain ⟨rfl, rfl⟩ := splitAt?_eq_some_iff.mp split
      rw [drop_encoded, trailingBytes_encoded, Option.map_some, Option.getD_some]

/-- The statement may cut characters. -/
theorem expandRemoval_bytes (text : List Char) (statement : Span) :
    expandRemoval text statement = expandBytes (encoded text) statement := by
  have first : min statement.start (byteLength text) ≤ byteLength text := Nat.min_le_right _ _
  have last : max (min statement.start (byteLength text)) (min statement.stop (byteLength text)) ≤
      byteLength text := by omega
  rw [expandRemoval, expandBytes, length_encoded, leadingBytes_at first, trailingBytes_at last]
  cases splitAt? text (min statement.start (byteLength text)) <;>
    cases splitAt? text (max (min statement.start (byteLength text))
      (min statement.stop (byteLength text))) <;> rfl

end Requalify.Text
