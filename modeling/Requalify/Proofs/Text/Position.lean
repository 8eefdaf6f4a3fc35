import Mathlib.Data.List.TakeWhile
import Requalify.Text.Position

/-!
Lines, columns and line ends as three readings of one partition of a content. Counting forward, the next
byte leads from each position to a later one. The start of a line is found backward and its end forward, and
from every offset of the line both are the same.
-/

namespace Requalify.Text

namespace Position

def first : Position := ⟨1, 1⟩

/-- Count one more byte. -/
def next (position : Position) (byte : UInt8) : Position :=
  if byte = lineFeed then ⟨position.line + 1, 1⟩ else ⟨position.line, position.column + 1⟩

/-- Count one more byte in words of 32 bits, unless one of them is full. -/
def next? (position : Position) (byte : UInt8) : Option Position :=
  let counted := position.next byte
  if counted.line < UInt32.size ∧ counted.column < UInt32.size then some counted else none

/-- Lines come first, and columns in one line. -/
def Precedes (left right : Position) : Prop :=
  left.line < right.line ∨ left.line = right.line ∧ left.column < right.column

theorem precedes_next (position : Position) (byte : UInt8) : position.Precedes (position.next byte) := by
  unfold next
  split
  next => exact .inl (Nat.lt_succ_self _)
  next => exact .inr ⟨rfl, Nat.lt_succ_self _⟩

theorem Precedes.trans {first second third : Position} (earlier : first.Precedes second)
    (later : second.Precedes third) : first.Precedes third := by
  unfold Precedes at *
  omega

theorem Precedes.ne {left right : Position} (earlier : left.Precedes right) : left ≠ right := by
  rintro rfl
  unfold Precedes at earlier
  omega

end Position

/-- The position of an offset, counted in words of 32 bits from the beginning of the content. -/
def counted? (content : List UInt8) (offset : Nat) : Option Position :=
  (content.take offset).foldlM Position.next? Position.first

variable {content : List UInt8} {offset : Nat}

theorem lineEnd_eq (inside : offset ≤ content.length) : lineEnd content offset =
    min (offset + ((content.drop offset).takeWhile (· != lineFeed)).length + 1) content.length := by
  rw [lineEnd, Nat.min_eq_left inside]

section Step

variable {byte : UInt8} (here : content[offset]? = some byte)

include here

theorem lineBefore_succ : lineBefore content (offset + 1) =
    if byte = lineFeed then [] else byte :: lineBefore content offset := by
  rw [lineBefore, List.take_add_one, here, Option.toList_some, List.reverse_append, List.reverse_singleton,
    List.singleton_append, List.takeWhile_cons]
  by_cases feed : byte = lineFeed
  · simp [feed]
  · simp [feed, lineBefore]

theorem position_succ : position content (offset + 1) = (position content offset).next byte := by
  rw [position, lineBefore_succ here, List.take_add_one, here, Option.toList_some, List.count_append]
  by_cases feed : byte = lineFeed
  · simp [Position.next, feed, position, Nat.add_assoc]
  · simp [Position.next, feed, position, Nat.add_assoc, Nat.add_comm 1]

theorem counted?_succ : counted? content (offset + 1) =
    (counted? content offset).bind fun position => position.next? byte := by
  rw [counted?, List.take_add_one, here, Option.toList_some, List.foldlM_append, counted?]
  simp

theorem lineEnd_succ (other : byte ≠ lineFeed) :
    lineEnd content (offset + 1) = lineEnd content offset := by
  obtain ⟨inside, isByte⟩ := List.getElem?_eq_some_iff.mp here
  have line : (content.drop offset).takeWhile (· != lineFeed) =
      byte :: (content.drop (offset + 1)).takeWhile (· != lineFeed) := by
    rw [List.drop_eq_getElem_cons inside, isByte, List.takeWhile_cons_of_pos (by simpa using other)]
  rw [lineEnd_eq (show offset + 1 ≤ content.length from inside), lineEnd_eq (Nat.le_of_lt inside), line,
    List.length_cons]
  omega

end Step

theorem length_lineBefore_le (content : List UInt8) (offset : Nat) :
    (lineBefore content offset).length ≤ min offset content.length := by
  have part := (List.takeWhile_prefix (l := (content.take offset).reverse) (· != lineFeed)).length_le
  rwa [List.length_reverse, List.length_take] at part

theorem column_add_lineStart (inside : offset ≤ content.length) :
    lineStart content offset + (position content offset).column = offset + 1 := by
  have shorter := length_lineBefore_le content offset
  simp only [lineStart, position]
  omega

theorem lineStart_succ {byte : UInt8} (here : content[offset]? = some byte) (other : byte ≠ lineFeed) :
    lineStart content (offset + 1) = lineStart content offset := by
  obtain ⟨inside, -⟩ := List.getElem?_eq_some_iff.mp here
  have now := column_add_lineStart (Nat.le_of_lt inside)
  have later := column_add_lineStart (show offset + 1 ≤ content.length from inside)
  have column : (position content (offset + 1)).column = (position content offset).column + 1 := by
    rw [position_succ here, Position.next, if_neg other]
  omega

theorem position_le (content : List UInt8) (offset : Nat) :
    (position content offset).line ≤ min offset content.length + 1 ∧
      (position content offset).column ≤ min offset content.length + 1 := by
  have feeds := List.count_le_length (a := lineFeed) (l := content.take offset)
  have shorter := length_lineBefore_le content offset
  rw [List.length_take] at feeds
  simp only [position]
  omega

/-- Words of 32 bits are wide enough for a content of fewer bytes. -/
theorem counted?_eq_some (short : content.length < UInt32.size - 1) (inside : offset ≤ content.length) :
    counted? content offset = some (position content offset) := by
  induction offset with
  | zero => rfl
  | succ offset ih =>
      have here := List.getElem?_eq_getElem inside
      obtain ⟨line, column⟩ := position_le content (offset + 1)
      rw [counted?_succ here, ih (Nat.le_of_succ_le inside), Option.bind_some, Position.next?,
        ← position_succ here]
      exact if_pos ⟨by omega, by omega⟩

theorem position_precedes {later : Nat} (ordered : offset < later) (inside : later ≤ content.length) :
    (position content offset).Precedes (position content later) := by
  induction later, ordered using Nat.le_induction with
  | base =>
      rw [position_succ (List.getElem?_eq_getElem inside)]
      exact Position.precedes_next _ _
  | succ later _ ih =>
      rw [position_succ (List.getElem?_eq_getElem inside)]
      exact (ih (Nat.le_of_succ_le inside)).trans (Position.precedes_next _ _)

theorem position_inj {other : Nat} (inside : offset ≤ content.length) (inside' : other ≤ content.length)
    (same : position content offset = position content other) : offset = other := by
  rcases Nat.lt_trichotomy offset other with before | equal | behind
  · exact absurd same (position_precedes before inside').ne
  · exact equal
  · exact absurd same.symm (position_precedes behind inside).ne

/-- No line feed stands between the start of a line and an offset in it. -/
theorem ne_lineFeed_of_lineStart {place : Nat} (from_ : lineStart content offset ≤ place)
    (upTo : place < offset) : content[place]? ≠ some lineFeed := by
  intro feed
  obtain ⟨inside, -⟩ := List.getElem?_eq_some_iff.mp feed
  have parts : ((content.take offset).reverse.dropWhile (· != lineFeed)).reverse ++
      (lineBefore content offset).reverse = content.take offset := by
    rw [← List.reverse_append, lineBefore, List.takeWhile_append_dropWhile, List.reverse_reverse]
  have size := congrArg List.length parts
  rw [List.length_append, @List.length_reverse _ (lineBefore content offset), List.length_take] at size
  rw [← List.getElem?_take_of_lt upTo, ← parts,
    List.getElem?_append_right (by simp only [lineStart] at from_; omega)] at feed
  have member := List.mem_reverse.mp (List.mem_of_getElem? feed)
  simpa using List.mem_takeWhile_imp member

/-- Nor does one stand between the offset and the last byte of the line. -/
theorem ne_lineFeed_of_lineEnd {place : Nat} (inside : offset ≤ content.length) (from_ : offset ≤ place)
    (upTo : place + 1 < lineEnd content offset) : content[place]? ≠ some lineFeed := by
  intro feed
  have parts : (content.drop offset).takeWhile (· != lineFeed) ++
      (content.drop offset).dropWhile (· != lineFeed) = content.drop offset :=
    List.takeWhile_append_dropWhile
  have behind : content[place]? = (content.drop offset)[place - offset]? := by
    rw [List.getElem?_drop, Nat.add_sub_cancel' from_]
  rw [lineEnd_eq inside] at upTo
  rw [behind, ← parts, List.getElem?_append_left (by omega)] at feed
  simpa using List.mem_takeWhile_imp (List.mem_of_getElem? feed)

/-- Offsets with no line feed from one to the other lie in one line. -/
theorem sameLine {later : Nat} (ordered : offset ≤ later) (inside : later ≤ content.length)
    (free : ∀ place, offset ≤ place → place < later → content[place]? ≠ some lineFeed) :
    lineStart content later = lineStart content offset ∧ lineEnd content later = lineEnd content offset := by
  induction later, ordered using Nat.le_induction with
  | base => exact ⟨rfl, rfl⟩
  | succ later ordered ih =>
      have here : content[later]? = some content[later] := List.getElem?_eq_getElem inside
      have other : content[later] ≠ lineFeed := fun feed =>
        free later ordered (Nat.lt_succ_self later) (by rw [here, feed])
      rw [lineStart_succ here other, lineEnd_succ here other]
      exact ih (Nat.le_of_succ_le inside) fun place from_ upTo => free place from_ (by omega)

/-- Lines, columns and the ends of lines tell one partition of a content into lines. -/
theorem position_exact (short : content.length < UInt32.size - 1) (inside : offset ≤ content.length) :
    counted? content offset = some (position content offset) ∧
    lineStart content offset + (position content offset).column = offset + 1 ∧
    (position content offset).line = (content.take offset).count lineFeed + 1 ∧
    (∀ later ≤ content.length, offset < later →
      (position content offset).Precedes (position content later)) ∧
    (∀ other ≤ content.length, position content other = position content offset → other = offset) ∧
    lineStart content offset ≤ offset ∧ offset ≤ lineEnd content offset ∧
    (∀ place, lineStart content offset ≤ place → place + 1 < lineEnd content offset →
      content[place]? ≠ some lineFeed) ∧
    ∀ earlier, lineStart content offset ≤ earlier → earlier ≤ offset →
      lineStart content earlier = lineStart content offset ∧
        lineEnd content earlier = lineEnd content offset := by
  have fromStart := column_add_lineStart inside
  have column : 0 < (position content offset).column := Nat.lt_add_right _ Nat.one_pos
  refine ⟨counted?_eq_some short inside, fromStart, ?_, ?_, ?_, by omega, ?_, ?_, ?_⟩
  · exact Nat.add_comm _ _
  · exact fun later inside' ordered => position_precedes ordered inside'
  · exact fun other inside' same => position_inj inside' inside same
  · rw [lineEnd_eq inside]
    omega
  · intro place from_ upTo
    rcases Nat.lt_or_ge place offset with before | behind
    · exact ne_lineFeed_of_lineStart from_ before
    · exact ne_lineFeed_of_lineEnd inside behind upTo
  · intro earlier from_ ordered
    obtain ⟨start, stop⟩ := sameLine ordered inside fun place from_' upTo =>
      ne_lineFeed_of_lineStart (Nat.le_trans from_ from_') upTo
    exact ⟨start.symm, stop.symm⟩

theorem position_exact_lineFeed :
    let content : List UInt8 := [97, 98, lineFeed, 99]
    (content.length < UInt32.size - 1 ∧ 2 ≤ content.length) ∧ counted? content 2 = some ⟨1, 3⟩ ∧
      (position content 2).Precedes (position content 3) ∧
      lineStart content 1 = lineStart content 2 ∧ lineEnd content 1 = lineEnd content 2 := by
  intro content
  have short : content.length < UInt32.size - 1 := by decide
  have inside : 2 ≤ content.length := by decide
  obtain ⟨counted, -, -, ascends, -, -, -, -, line⟩ := position_exact short inside
  exact ⟨⟨short, inside⟩, counted, ascends 3 (by decide) (by decide), line 1 (by decide) (by decide)⟩

end Requalify.Text
