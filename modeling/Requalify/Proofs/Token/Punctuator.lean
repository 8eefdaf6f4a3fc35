import Mathlib.Data.List.Find
import Requalify.Token.Lexer

/-!
Punctuators at the beginning of a text. The longest punctuator counts, and every part of one but an
ellipsis is a punctuator too, so two more characters always tell which one it is.
-/

namespace Requalify

namespace Piece

/-- The characters of punctuators that have more than one, and those that begin a comment or `::`. -/
def isOperator (c : Char) : Bool :=
  ['<', '=', '>', '.', '-', '*', '&', '|', '+', '!', '/', '%', '^', '#', ':'].contains c

theorem isOperator_of_mem {punctuator : List Char} (member : punctuator ∈ punctuators) :
    ∀ c ∈ punctuator, isOperator c = true := by
  have all : (punctuators.all fun word => word.all isOperator) = true := by decide
  exact List.all_eq_true.mp (List.all_eq_true.mp all punctuator member)

theorem length_of_mem {punctuator : List Char} (member : punctuator ∈ punctuators) :
    punctuator.length = 2 ∨ punctuator.length = 3 := by
  have all : (punctuators.all fun word => decide (word.length = 2 ∨ word.length = 3)) = true := by
    decide
  exact of_decide_eq_true (List.all_eq_true.mp all punctuator member)

/-- Two of the three characters are a punctuator too, except in an ellipsis. -/
theorem take_two_of_mem {punctuator : List Char} (member : punctuator ∈ punctuators)
    (long : punctuator.length = 3) :
    punctuator.take 2 ∈ punctuators ∨ punctuator = ['.', '.', '.'] := by
  have all : (punctuators.all fun word => decide (word.length = 3 →
      word.take 2 ∈ punctuators ∨ word = ['.', '.', '.'])) = true := by
    decide +kernel
  exact of_decide_eq_true (List.all_eq_true.mp all punctuator member) long

theorem prefix_of_not_mem {word front rest : List Char} {c : Char} (begins : word <+: front ++ c :: rest)
    (apart : c ∉ word) : word <+: front := by
  rcases Nat.lt_or_ge front.length word.length with long | short
  · have covers : front ++ [c] <+: word := by
      refine List.prefix_of_prefix_length_le ⟨rest, by simp⟩ begins ?_
      rw [List.length_append, List.length_singleton]
      exact long
    exact absurd (covers.subset (by simp)) apart
  · exact List.prefix_of_prefix_length_le begins (List.prefix_append _ _) short

/-- What is found as a punctuator in front of a text is found alone too. -/
theorem ofPunctuator_of_append {front after : List Char} {kind : TokenKind} {more : Nat}
    (found : ofPunctuator (front ++ after) = .token kind more) (size : front.length = more + 1) :
    kind = .punctuator ∧ ofPunctuator front = .token .punctuator more ∧
      (more = 0 ∨ front ∈ punctuators) := by
  unfold ofPunctuator at found ⊢
  split at found
  next punctuator search =>
    obtain ⟨rfl, rfl⟩ := Piece.token.inj found
    obtain ⟨begins, before, behind, parts, others⟩ := List.find?_eq_some_iff_append.mp search
    have member : punctuator ∈ punctuators := by simp [parts]
    have length := length_of_mem member
    have whole : punctuator = front :=
      (List.prefix_of_prefix_length_le (List.isPrefixOf_iff_prefix.mp begins)
        (List.prefix_append front after) (by omega)).eq_of_length (by omega)
    have alone : punctuators.find? (·.isPrefixOf front) = some punctuator := by
      refine List.find?_eq_some_iff_append.mpr
        ⟨by simp [whole], before, behind, parts, fun other otherMember => ?_⟩
      have apart := others other otherMember
      rw [Bool.not_eq_true', Bool.eq_false_iff, Ne, List.isPrefixOf_iff_prefix] at apart ⊢
      exact fun otherBegins => apart (otherBegins.trans (List.prefix_append front after))
    exact ⟨rfl, by rw [alone], .inr (whole ▸ member)⟩
  next search =>
    obtain ⟨rfl, rfl⟩ := Piece.token.inj found
    have alone : punctuators.find? (·.isPrefixOf front) = none := by
      refine List.find?_eq_none.mpr fun other otherMember otherBegins => ?_
      have apart := List.find?_eq_none.mp search other otherMember
      rw [List.isPrefixOf_iff_prefix] at apart otherBegins
      exact apart (otherBegins.trans (List.prefix_append front after))
    exact ⟨rfl, by rw [alone], .inl rfl⟩

theorem ofPunctuator_append {front after : List Char} (stops : after.head?.any isOperator = false) :
    ofPunctuator (front ++ after) = ofPunctuator front := by
  cases after with
  | nil => rw [List.append_nil]
  | cons c rest =>
      have same : punctuators.find? (·.isPrefixOf (front ++ c :: rest)) =
          punctuators.find? (·.isPrefixOf front) := by
        refine List.find?_congr fun punctuator member => ?_
        rw [Bool.eq_iff_iff, List.isPrefixOf_iff_prefix, List.isPrefixOf_iff_prefix]
        refine ⟨fun begins => prefix_of_not_mem begins fun inside => ?_,
          fun begins => begins.trans (List.prefix_append _ _)⟩
        have operator := isOperator_of_mem member c inside
        simp [operator] at stops
      unfold ofPunctuator
      rw [same]

theorem ofPunctuator_eq_single {text : List Char} :
    ofPunctuator text = .token .punctuator 0 ↔ ∀ punctuator ∈ punctuators, ¬punctuator <+: text := by
  unfold ofPunctuator
  constructor
  · intro found punctuator member begins
    split at found
    next other search =>
      have length := length_of_mem (List.mem_of_find?_eq_some search)
      simp only [Piece.token.injEq, true_and] at found
      omega
    next search =>
      exact List.find?_eq_none.mp search punctuator member (List.isPrefixOf_iff_prefix.mpr begins)
  · intro nothing
    have search : punctuators.find? (·.isPrefixOf text) = none :=
      List.find?_eq_none.mpr fun punctuator member begins =>
        nothing punctuator member (List.isPrefixOf_iff_prefix.mp begins)
    rw [search]

/-- A character that is no operator is a punctuator of its own. -/
theorem ofPunctuator_plain {c : Char} (plain : isOperator c = false) (after : List Char) :
    ofPunctuator (c :: after) = .token .punctuator 0 := by
  refine ofPunctuator_eq_single.mpr fun punctuator member begins => ?_
  have length := length_of_mem member
  cases punctuator with
  | nil => simp at length
  | cons first others =>
      obtain rfl : first = c := (List.cons_prefix_cons.mp begins).1
      simp [isOperator_of_mem member first (by simp)] at plain

theorem ofPunctuator_single {first second : Char} {rest rest' : List Char}
    (found : ofPunctuator (first :: second :: rest) = .token .punctuator 0)
    (dots : second = '.' → rest'.head? = some '.' → rest.head? = some '.') :
    ofPunctuator (first :: second :: rest') = .token .punctuator 0 := by
  rw [ofPunctuator_eq_single] at found ⊢
  intro punctuator member begins
  rcases length_of_mem member with short | long
  · have pair : punctuator <+: [first, second] :=
      List.prefix_of_prefix_length_le begins ⟨rest', rfl⟩ (Nat.le_of_eq short)
    exact found punctuator member (pair.trans ⟨rest, rfl⟩)
  · rcases take_two_of_mem member long with two | rfl
    · have pair : punctuator.take 2 <+: [first, second] :=
        List.prefix_of_prefix_length_le ((List.take_prefix _ _).trans begins) ⟨rest', rfl⟩ (by simp)
      exact found _ two (pair.trans ⟨rest, rfl⟩)
    · have behind := (List.cons_prefix_cons.mp begins).2
      have isFirst : first = '.' := (List.cons_prefix_cons.mp begins).1.symm
      have isSecond : second = '.' := (List.cons_prefix_cons.mp behind).1.symm
      obtain ⟨others', rfl⟩ := (List.cons_prefix_cons.mp behind).2
      obtain ⟨others, rfl⟩ := List.head?_eq_some_iff.mp (dots isSecond rfl)
      refine found _ member ⟨others, ?_⟩
      rw [isFirst, isSecond]
      rfl

/-- A punctuator in front of a text is the same in front of any other text with the same first character,
unless an ellipsis comes about. -/
theorem ofPunctuator_same {front after after' : List Char} {kind : TokenKind} {more : Nat}
    (found : ofPunctuator (front ++ after) = .token kind more) (size : front.length = more + 1)
    (same : after'.head? = after.head?)
    (dots : after.head? = some '.' → after'.tail.head? = some '.' → after.tail.head? = some '.') :
    ofPunctuator (front ++ after') = .token kind more := by
  cases after with
  | nil =>
      obtain rfl : after' = [] := List.head?_eq_none_iff.mp same
      exact found
  | cons c rest =>
      obtain ⟨rest', rfl⟩ := List.head?_eq_some_iff.mp same
      obtain ⟨rfl, -, -⟩ := ofPunctuator_of_append found size
      match front, more, size with
      | [first], 0, _ =>
          exact ofPunctuator_single found fun isDot => dots (congrArg some isDot)
      | first :: second :: front, more + 1, _ =>
          have search : punctuators.find? (·.isPrefixOf (first :: second :: front ++ c :: rest')) =
              punctuators.find? (·.isPrefixOf (first :: second :: front ++ c :: rest)) := by
            refine List.find?_congr fun punctuator member => ?_
            have short := length_of_mem member
            have within (others : List Char) : punctuator <+: first :: second :: front ++ c :: others ↔
                punctuator <+: first :: second :: front ++ [c] := by
              have parts : first :: second :: front ++ [c] <+:
                  first :: second :: front ++ c :: others := ⟨others, by simp⟩
              refine ⟨fun begins => List.prefix_of_prefix_length_le begins parts ?_, (·.trans parts)⟩
              simp only [List.length_append, List.length_cons]
              omega
            rw [Bool.eq_iff_iff, List.isPrefixOf_iff_prefix, List.isPrefixOf_iff_prefix,
              within rest, within rest']
          unfold ofPunctuator at found ⊢
          rw [search]
          exact found

/-- A punctuator that ends with `last` in front of `after` is the same one in front of `after'`. -/
def SameMark (last : Char) (after after' : List Char) : Prop :=
  (after'.head? = after.head? ∧
    (after.head? = some '.' → after'.tail.head? = some '.' → after.tail.head? = some '.')) ∨
  isOperator last = false ∨ after'.head?.any (fun c => isOperator c || c.isDigit) = false

end Piece

end Requalify
