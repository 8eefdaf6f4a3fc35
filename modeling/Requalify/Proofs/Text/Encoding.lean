import Requalify.Proofs.Text.Character
import Requalify.Text.Position

/-!
The bytes of a text. A character of one byte is found in the bytes where it stands in the text and nowhere
else, since all bytes of the other characters are larger. A search for such characters can therefore be made
in the bytes as well as in the text.
-/

namespace Requalify.Text

def encoded (text : List Char) : List UInt8 :=
  text.flatMap String.utf8EncodeChar

theorem bytes_eq (text : String) : bytes text = encoded text.toList := by
  have encode : text.toUTF8 = text.toList.utf8Encode := String.utf8Encode_toList.symm
  rw [bytes, encode, List.utf8Encode, List.data_toByteArray]
  rfl

@[simp]
theorem encoded_nil : encoded [] = [] := rfl

@[simp]
theorem encoded_cons (c : Char) (rest : List Char) :
    encoded (c :: rest) = String.utf8EncodeChar c ++ encoded rest := rfl

@[simp]
theorem encoded_append (left right : List Char) :
    encoded (left ++ right) = encoded left ++ encoded right :=
  List.flatMap_append

@[simp]
theorem length_encoded (text : List Char) : (encoded text).length = byteLength text := by
  induction text with
  | nil => rfl
  | cons c rest ih => rw [encoded_cons, List.length_append, String.length_utf8EncodeChar, ih,
      byteLength_cons]

theorem drop_encoded (front back : List Char) :
    (encoded (front ++ back)).drop (byteLength front) = encoded back := by
  rw [encoded_append, ← length_encoded front, List.drop_left]

theorem take_encoded (front back : List Char) :
    (encoded (front ++ back)).take (byteLength front) = encoded front := by
  rw [encoded_append, ← length_encoded front, List.take_left]

theorem encode_narrow {c : Char} (narrow : c.utf8Size = 1) :
    String.utf8EncodeChar c = [c.val.toUInt8] :=
  String.utf8EncodeChar_eq_singleton narrow

theorem toNat_le_of_narrow {c : Char} (narrow : c.utf8Size = 1) : c.val.toNat ≤ 127 := by
  rw [Char.utf8Size_eq_one_iff] at narrow
  exact narrow

/-- All bytes of a character of several bytes are larger than those of the others. -/
theorem le_of_wide {c : Char} {byte : UInt8} (wide : c.utf8Size ≠ 1)
    (member : byte ∈ String.utf8EncodeChar c) : 128 ≤ byte.toNat := by
  have large : ¬c.val.toNat ≤ 127 := fun small => wide (Char.utf8Size_eq_one_iff.mpr small)
  simp only [String.utf8EncodeChar, if_neg large] at member
  split at member
  · simp only [List.mem_cons, List.not_mem_nil, or_false] at member
    rcases member with rfl | rfl <;> simp only [UInt8.toNat_ofNat'] <;> omega
  · split at member
    · simp only [List.mem_cons, List.not_mem_nil, or_false] at member
      rcases member with rfl | rfl | rfl <;> simp only [UInt8.toNat_ofNat'] <;> omega
    · simp only [List.mem_cons, List.not_mem_nil, or_false] at member
      rcases member with rfl | rfl | rfl | rfl <;> simp only [UInt8.toNat_ofNat'] <;> omega

theorem byte_eq_iff {c narrow : Char} (size : narrow.utf8Size = 1) {byte : UInt8}
    (member : byte ∈ String.utf8EncodeChar c) : byte = narrow.val.toUInt8 ↔ c = narrow := by
  have small := toNat_le_of_narrow size
  by_cases wide : c.utf8Size = 1
  · have small' := toNat_le_of_narrow wide
    rw [encode_narrow wide, List.mem_singleton] at member
    subst member
    constructor
    · intro same
      have numbers := congrArg UInt8.toNat same
      simp only [UInt32.toNat_toUInt8] at numbers
      exact Char.ext (UInt32.toNat_inj.mp (by omega))
    · rintro rfl
      rfl
  · have large := le_of_wide wide member
    constructor
    · intro same
      have numbers := congrArg UInt8.toNat same
      simp only [UInt32.toNat_toUInt8] at numbers
      omega
    · rintro rfl
      exact absurd size wide

/-- A test of bytes that each byte of a character passes if the character passes a test of its own. -/
def Reflects (test : UInt8 → Bool) (keeps : Char → Bool) : Prop :=
  ∀ c, ∀ byte ∈ String.utf8EncodeChar c, test byte = keeps c

theorem reflects_lineFeed : Reflects (· != lineFeed) (· != '\n') := by
  intro c byte member
  have same : byte = lineFeed ↔ c = '\n' := @byte_eq_iff c '\n' rfl byte member
  rw [Bool.eq_iff_iff, bne_iff_ne, bne_iff_ne]
  exact not_congr same

section Encoder

variable {encode : Char → List UInt8} (filled : ∀ c, encode c ≠ []) {test : UInt8 → Bool}
  {keeps : Char → Bool} (reflects : ∀ c, ∀ byte ∈ encode c, test byte = keeps c)

include filled reflects

theorem takeWhile_flatMap (text : List Char) :
    (text.flatMap encode).takeWhile test = (text.takeWhile keeps).flatMap encode := by
  induction text with
  | nil => rfl
  | cons c rest ih =>
      rw [List.flatMap_cons]
      by_cases kept : keeps c = true
      · have all : ∀ byte ∈ encode c, test byte = true := fun byte member =>
          (reflects c byte member).trans kept
        rw [List.takeWhile_append_of_pos all, ih, List.takeWhile_cons_of_pos kept, List.flatMap_cons]
      · obtain ⟨byte, more, parts⟩ := List.exists_cons_of_ne_nil (filled c)
        have first : ¬test byte = true := by
          rw [reflects c byte (by simp [parts])]
          exact kept
        rw [parts, List.cons_append, List.takeWhile_cons_of_neg first, List.takeWhile_cons_of_neg kept]
        rfl

theorem dropWhile_flatMap (text : List Char) :
    (text.flatMap encode).dropWhile test = (text.dropWhile keeps).flatMap encode := by
  have whole : (text.takeWhile keeps).flatMap encode ++ (text.dropWhile keeps).flatMap encode =
      text.flatMap encode := by
    rw [← List.flatMap_append, List.takeWhile_append_dropWhile]
  have parts := List.takeWhile_append_dropWhile (p := test) (l := text.flatMap encode)
  rw [takeWhile_flatMap filled reflects] at parts
  exact List.append_cancel_left (parts.trans whole.symm)

end Encoder

theorem reverse_encoded (text : List Char) :
    (encoded text).reverse = text.reverse.flatMap fun c => (String.utf8EncodeChar c).reverse :=
  List.reverse_flatMap

theorem byteLength_reverse (text : List Char) : byteLength text.reverse = byteLength text := by
  induction text with
  | nil => rfl
  | cons c rest ih =>
      rw [List.reverse_cons, byteLength_append, ih, byteLength_cons, byteLength_cons, byteLength_nil]
      omega

section Reflects

variable {test : UInt8 → Bool} {keeps : Char → Bool} (reflects : Reflects test keeps)

include reflects

theorem Reflects.takeWhile (text : List Char) :
    (encoded text).takeWhile test = encoded (text.takeWhile keeps) :=
  takeWhile_flatMap (@String.utf8EncodeChar_ne_nil) reflects text

theorem Reflects.dropWhile (text : List Char) :
    (encoded text).dropWhile test = encoded (text.dropWhile keeps) :=
  dropWhile_flatMap (@String.utf8EncodeChar_ne_nil) reflects text

theorem Reflects.takeWhile_reverse (text : List Char) :
    (encoded text).reverse.takeWhile test = (encoded (text.reverse.takeWhile keeps).reverse).reverse := by
  rw [reverse_encoded, reverse_encoded, List.reverse_reverse]
  exact takeWhile_flatMap (by simp) (fun c byte member => reflects c byte (List.mem_reverse.mp member)) _

theorem Reflects.dropWhile_reverse (text : List Char) :
    (encoded text).reverse.dropWhile test = (encoded (text.reverse.dropWhile keeps).reverse).reverse := by
  rw [reverse_encoded, reverse_encoded, List.reverse_reverse]
  exact dropWhile_flatMap (by simp) (fun c byte member => reflects c byte (List.mem_reverse.mp member)) _

end Reflects

end Requalify.Text
