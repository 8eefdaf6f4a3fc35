import Requalify.Proofs.Token.Ahead

/-!
What stands in front of a place in two texts that differ in one stretch only, nearest first. The stretch ends
with an opening brace, where looking back for a type or a type definition ends as well. Only parentheses that
close behind the stretch lead past it, and in front of it the texts are spelled alike.
-/

namespace Requalify

namespace Token

theorem isConstancy_of_lexeme {left right : Token} (same : right.lexeme = left.lexeme) :
    right.isConstancy = left.isConstancy := by
  rw [isConstancy, isConstancy, isKeyword_of_lexeme same, isKeyword_of_lexeme same]

theorem isIndirection_of_lexeme {left right : Token} (same : right.lexeme = left.lexeme) :
    right.isIndirection = left.isIndirection := by
  rw [isIndirection, isIndirection, isPunctuator_of_lexeme same, isPunctuator_of_lexeme same,
    isPunctuator_of_lexeme same]

/-- The stretches where two texts differ, nearest token first. -/
structure Fences (low low' : Nat) (left right : List Token) : Prop where
  head : ∃ brace brace' back back', left = brace :: back ∧ right = brace' :: back' ∧
    brace.isPunctuator "\x7b" = true ∧ brace'.lexeme = brace.lexeme ∧ brace.start ≤ low ∧
      brace'.start ≤ low'
  noBracket : (∀ token ∈ left, token.isGroupMark = false) ∧ ∀ token ∈ right, token.isGroupMark = false

/-- What stands in front in both texts. No token behind the difference starts before `low` or `low'`. -/
inductive Behind (same : Nat → Nat → Prop) (low low' : Nat) : List Token → List Token → Prop
  | start : Behind same low low' [] []
  | fence {left right rest rest' : List Token} (fences : Fences low low' left right)
      (spelled : rest'.map lexeme = rest.map lexeme) :
      Behind same low low' (left ++ rest) (right ++ rest')
  | cons {token token' : Token} {rest rest' : List Token} (alike : Alike same token token')
      (others : Behind same low low' rest rest') :
      Behind same low low' (token :: rest) (token' :: rest')

/-! Template arguments are followed back by what the tokens spell. -/

theorem closesTemplate_of_lexemes {left right : List Token} (spelled : right.map lexeme = left.map lexeme)
    (depth parens : Nat) : closesTemplate depth parens right = closesTemplate depth parens left := by
  induction left generalizing depth parens right with
  | nil =>
      obtain rfl : right = [] := by simpa using spelled
      rfl
  | cons token before ih =>
      cases right with
      | nil => simp at spelled
      | cons token' before' =>
          obtain ⟨lexeme, others⟩ := List.cons.inj spelled
          have heads : before'.head?.map Token.lexeme = before.head?.map Token.lexeme := by
            rw [← List.head?_map, ← List.head?_map, others]
          simp only [closesTemplate, isPunctuator_of_lexeme lexeme, ih others,
            startsWithIdentifier_of_head? heads]

/-- Inside parentheses nothing but parentheses matters. -/
theorem closesTemplate_inside {stretch : List Token} (noBracket : ∀ token ∈ stretch, token.isGroupMark = false)
    (depth : Nat) {parens : Nat} (inside : 0 < parens) (rest : List Token) :
    closesTemplate depth parens (stretch ++ rest) = closesTemplate depth parens rest := by
  induction stretch with
  | nil => rfl
  | cons token stretch ih =>
      obtain ⟨here, others⟩ := List.forall_mem_cons.mp noBracket
      simp only [isGroupMark, Bool.or_eq_false_iff] at here
      simp [closesTemplate, here, inside, ih others]

namespace Behind

variable {same : Nat → Nat → Prop} {low low' : Nat} {left right : List Token}
  (behind : Behind same low low' left right)

include behind

theorem head?_lexeme : right.head?.map lexeme = left.head?.map lexeme := by
  cases behind with
  | start => rfl
  | fence fences =>
      obtain ⟨brace, brace', back, back', rfl, rfl, -, lexeme, -⟩ := fences.head
      exact congrArg some lexeme
  | cons alike => exact congrArg some alike.lexeme

theorem closesTemplate (depth parens : Nat) :
    Token.closesTemplate depth parens right = Token.closesTemplate depth parens left := by
  induction behind generalizing depth parens with
  | start => rfl
  | fence fences spelled =>
      obtain ⟨noBracket, noBracket'⟩ := fences.noBracket
      by_cases inside : 0 < parens
      · rw [closesTemplate_inside noBracket depth inside, closesTemplate_inside noBracket' depth inside,
          closesTemplate_of_lexemes spelled]
      · obtain ⟨brace, brace', back, back', rfl, rfl, opens, lexeme, -⟩ := fences.head
        have other (text : String) (different : "\x7b" ≠ text) :=
          not_isPunctuator_of_isPunctuator opens different
        simp [Token.closesTemplate, isPunctuator_of_lexeme lexeme, inside, opens, other]
  | cons alike others ih =>
      simp only [Token.closesTemplate, isPunctuator_of_lexeme alike.lexeme, ih,
        startsWithIdentifier_of_head? others.head?_lexeme]

theorem endsType : Token.endsType right = Token.endsType left := by
  induction behind with
  | start => rfl
  | fence fences spelled =>
      obtain ⟨brace, brace', back, back', rfl, rfl, opens, lexeme, -⟩ := fences.head
      have nothing {token : Token} (rest : List Token) (opens : token.isPunctuator "\x7b" = true) :
          Token.endsType (token :: rest) = false := by
        have kind := kind_of_isPunctuator opens
        have other (text : String) (different : "\x7b" ≠ text) :=
          not_isPunctuator_of_isPunctuator opens different
        simp [Token.endsType, isIdentifier, isConstancy, isIndirection, isKeyword, kind, other]
      rw [List.cons_append, List.cons_append, nothing _ opens,
        nothing _ ((isPunctuator_of_lexeme lexeme _).trans opens)]
  | cons alike others ih =>
      rw [Token.endsType, Token.endsType, (Behind.cons alike others).closesTemplate 0 0, ih,
        isIdentifier_of_lexeme alike.lexeme, kind_of_lexeme alike.lexeme, text_of_lexeme alike.lexeme,
        isPunctuator_of_lexeme alike.lexeme, isPunctuator_of_lexeme alike.lexeme,
        isConstancy_of_lexeme alike.lexeme, isIndirection_of_lexeme alike.lexeme]

theorem startsWith_dropWhile (text : String) :
    startsWith (right.dropWhile isIndirection) text = startsWith (left.dropWhile isIndirection) text := by
  refine startsWith_of_head? ?_ text
  induction behind with
  | start => rfl
  | fence fences spelled =>
      obtain ⟨brace, brace', back, back', rfl, rfl, opens, lexeme, -⟩ := fences.head
      have other (text : String) (different : "\x7b" ≠ text) :=
        not_isPunctuator_of_isPunctuator opens different
      simp [isIndirection, isPunctuator_of_lexeme lexeme, other, lexeme]
  | cons alike others ih =>
      rw [List.dropWhile_cons, List.dropWhile_cons, isIndirection_of_lexeme alike.lexeme]
      split
      · exact ih
      · exact congrArg some alike.lexeme

/-- What follows a place behind the difference is the same in both texts. -/
theorem takeWhile (ascends : ∀ {left right left' right' : Nat}, same left left' → same right right' →
      (left < right ↔ left' < right')) {offset offset' : Nat} (here : same offset offset')
    (bound : low ≤ offset) (bound' : low' ≤ offset') :
    List.Forall₂ (Alike same) (left.takeWhile fun token => offset < token.start)
      (right.takeWhile fun token => offset' < token.start) := by
  induction behind with
  | start => exact .nil
  | fence fences spelled =>
      obtain ⟨brace, brace', back, back', rfl, rfl, -, -, early, early'⟩ := fences.head
      have stop : ¬ offset < brace.start := by omega
      have stop' : ¬ offset' < brace'.start := by omega
      simp [stop, stop']
  | @cons token token' rest rest' alike others ih =>
      have iff := ascends here alike.start
      rw [List.takeWhile_cons, List.takeWhile_cons]
      by_cases later : offset < token.start
      · simp only [later, iff.mp later, decide_true, if_true]
        exact .cons alike ih
      · have later' : ¬ offset' < token'.start := fun less => later (iff.mpr less)
        simp [later, later']

end Behind

end Token

end Requalify
