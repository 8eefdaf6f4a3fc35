import Requalify.Span

/-!
Byte offsets into a text. A text is a list of characters, an offset counts the bytes of their UTF-8
form, and `splitAt?` answers only at offsets that fall between two characters.
-/

namespace Requalify.Text

def byteLength (text : List Char) : Nat :=
  text.foldl (fun total c => total + c.utf8Size) 0

def bytes (text : String) : List UInt8 :=
  text.toUTF8.data.toList

/-- Walk `remaining` bytes into `text`, keeping what was passed in `before`, nearest first. -/
def splitFrom (before : List Char) : List Char → Nat → Option (List Char × List Char)
  | rest, 0 => some (before.reverse, rest)
  | [], _ + 1 => none
  | c :: rest, remaining + 1 =>
      if c.utf8Size ≤ remaining + 1 then
        splitFrom (c :: before) rest (remaining + 1 - c.utf8Size)
      else none

/-- The two parts of `text` around a byte offset; `none` past the end or inside a character. -/
def splitAt? (text : List Char) (offset : Nat) : Option (List Char × List Char) :=
  splitFrom [] text offset

def isBoundary (text : List Char) (offset : Nat) : Bool :=
  (splitAt? text offset).isSome

/-- The part of `text` that a span covers, if both its ends fall between characters. -/
def slice? (text : List Char) (span : Span) : Option (List Char) := do
  let (_, rest) ← splitAt? text span.start
  let (covered, _) ← splitAt? rest span.length
  return covered

/-- Replace the covered part of `text`, or leave the text alone if the span cuts a character. -/
def replace (text : List Char) (span : Span) (replacement : List Char) : List Char :=
  match splitAt? text span.start with
  | none => text
  | some (before, rest) =>
      match splitAt? rest span.length with
      | none => text
      | some (_, after) => before ++ replacement ++ after

/-! What the parts around an offset are. -/

theorem byteLength_from (text : List Char) (total : Nat) :
    text.foldl (fun total c => total + c.utf8Size) total = total + byteLength text := by
  unfold byteLength
  induction text generalizing total with
  | nil => rfl
  | cons c rest ih =>
      simp only [List.foldl_cons, Nat.zero_add]
      rw [ih (total + c.utf8Size), ih c.utf8Size]
      omega

@[simp]
theorem byteLength_nil : byteLength [] = 0 := rfl

@[simp]
theorem byteLength_cons (c : Char) (rest : List Char) :
    byteLength (c :: rest) = c.utf8Size + byteLength rest := by
  simp only [byteLength, List.foldl_cons, Nat.zero_add]
  exact byteLength_from rest c.utf8Size

@[simp]
theorem byteLength_append (left right : List Char) :
    byteLength (left ++ right) = byteLength left + byteLength right := by
  induction left with
  | nil => simp
  | cons c rest ih => simp [ih, Nat.add_assoc]

theorem splitFrom_append (before left right : List Char) :
    splitFrom before (left ++ right) (byteLength left) = some (before.reverse ++ left, right) := by
  induction left generalizing before with
  | nil => simp [splitFrom]
  | cons c rest ih =>
      have positive : 0 < c.utf8Size := c.utf8Size_pos
      obtain ⟨size, sizeEq⟩ : ∃ size, c.utf8Size + byteLength rest = size + 1 :=
        ⟨c.utf8Size + byteLength rest - 1, by omega⟩
      rw [List.cons_append, byteLength_cons, sizeEq, splitFrom, if_pos (by omega),
        show size + 1 - c.utf8Size = byteLength rest by omega, ih]
      simp

theorem splitAt?_append (left right : List Char) :
    splitAt? (left ++ right) (byteLength left) = some (left, right) := by
  simpa [splitAt?] using splitFrom_append [] left right

theorem splitFrom_eq_some {before text left right : List Char} {offset : Nat}
    (split : splitFrom before text offset = some (left, right)) :
    ∃ passed, left = before.reverse ++ passed ∧ text = passed ++ right ∧
      byteLength passed = offset := by
  induction text generalizing before offset with
  | nil =>
      cases offset with
      | zero => simp_all [splitFrom]
      | succ offset => simp [splitFrom] at split
  | cons c rest ih =>
      cases offset with
      | zero => simp_all [splitFrom]
      | succ offset =>
          rw [splitFrom] at split
          split at split
          · obtain ⟨passed, leftEq, textEq, lengthEq⟩ := ih split
            refine ⟨c :: passed, ?_, ?_, ?_⟩
            · simp [leftEq]
            · simp [textEq]
            · simp [lengthEq]
              omega
          · simp at split

theorem splitAt?_eq_some_iff {text left right : List Char} {offset : Nat} :
    splitAt? text offset = some (left, right) ↔
      text = left ++ right ∧ byteLength left = offset := by
  constructor
  · intro split
    obtain ⟨passed, leftEq, textEq, lengthEq⟩ := splitFrom_eq_some split
    simp at leftEq
    subst leftEq
    exact ⟨textEq, lengthEq⟩
  · rintro ⟨rfl, rfl⟩
    exact splitAt?_append left right

end Requalify.Text
