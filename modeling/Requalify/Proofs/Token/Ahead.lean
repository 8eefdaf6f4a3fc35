import Mathlib.Data.List.Forall2
import Requalify.Proofs.Token.Inserted

/-!
What lies ahead in two texts that differ in some stretches only. Each such stretch begins with a token that
ends every name, and has no brackets. So what is read in front of the stretch is read alike, and a group of
brackets that begins in front of it ends alike, inside or behind.
-/

namespace Requalify

namespace Token

theorem kind_of_lexeme {left right : Token} (same : right.lexeme = left.lexeme) :
    right.kind = left.kind :=
  congrArg Prod.fst same

theorem text_of_lexeme {left right : Token} (same : right.lexeme = left.lexeme) :
    right.text = left.text :=
  congrArg Prod.snd same

theorem isKeyword_of_lexeme {left right : Token} (same : right.lexeme = left.lexeme) (text : String) :
    right.isKeyword text = left.isKeyword text := by
  rw [isKeyword, isKeyword, kind_of_lexeme same, text_of_lexeme same]

theorem isIdentifier_of_lexeme {left right : Token} (same : right.lexeme = left.lexeme) :
    right.isIdentifier = left.isIdentifier := by
  rw [isIdentifier, isIdentifier, kind_of_lexeme same]

theorem isScope_of_lexeme {left right : Token} (same : right.lexeme = left.lexeme) :
    right.isScope = left.isScope := by
  rw [isScope, isScope, kind_of_lexeme same]

theorem opensAttribute_of_lexeme {left right : Token} (same : right.lexeme = left.lexeme) :
    right.opensAttribute = left.opensAttribute := by
  rw [opensAttribute, opensAttribute, isKeyword_of_lexeme same, text_of_lexeme same]

/-- The same token in both texts. -/
structure Alike (same : Nat → Nat → Prop) (left right : Token) : Prop where
  lexeme : right.lexeme = left.lexeme
  start : same left.start right.start

/-- A token where texts may begin to differ. No name goes on here, and no list of names. -/
def isWall (token : Token) : Bool :=
  token.isKeyword "namespace" || token.isPunctuator "\x7d"

def isGroupMark (token : Token) : Bool :=
  token.isPunctuator "(" || token.isPunctuator ")" || token.isPunctuator "[" || token.isPunctuator "]"

/-- The stretches where two texts differ. -/
structure Borders (left right : List Token) : Prop where
  head : ∃ wall wall' back back', left = wall :: back ∧ right = wall' :: back' ∧
    wall.isWall = true ∧ wall'.lexeme = wall.lexeme
  noBracket : (∀ token ∈ left, token.isGroupMark = false) ∧ ∀ token ∈ right, token.isGroupMark = false

/-- What lies ahead in both texts; the first `count` tokens are the same. -/
inductive Ahead (same : Nat → Nat → Prop) : Nat → List Token → List Token → Prop
  | done : Ahead same 0 [] []
  | border {left right rest rest' : List Token} {count : Nat} (borders : Borders left right)
      (others : Ahead same count rest rest') : Ahead same 0 (left ++ rest) (right ++ rest')
  | cons {token token' : Token} {rest rest' : List Token} {count : Nat}
      (alike : Alike same token token') (others : Ahead same count rest rest') :
      Ahead same (count + 1) (token :: rest) (token' :: rest')

section Wall

variable {wall : Token} (isWall : wall.isWall = true)

include isWall

theorem not_isIdentifier_of_isWall : wall.isIdentifier = false := by
  simp only [Token.isWall, isKeyword, isPunctuator, Bool.or_eq_true, Bool.and_eq_true, beq_iff_eq] at isWall
  rcases isWall with ⟨kind, -⟩ | ⟨kind, -⟩ <;> simp [isIdentifier, kind]

theorem not_isScope_of_isWall : wall.isScope = false := by
  simp only [Token.isWall, isKeyword, isPunctuator, Bool.or_eq_true, Bool.and_eq_true, beq_iff_eq] at isWall
  rcases isWall with ⟨kind, -⟩ | ⟨kind, -⟩ <;> simp [isScope, kind]

theorem not_isKeyword_of_isWall {text : String} (other : text ≠ "namespace") :
    wall.isKeyword text = false := by
  simp only [Token.isWall, isKeyword, isPunctuator, Bool.or_eq_true, Bool.and_eq_true, beq_iff_eq] at isWall
  rcases isWall with ⟨kind, text⟩ | ⟨kind, -⟩
  · simp [isKeyword, text, Ne.symm other]
  · simp [isKeyword, kind]

theorem not_isPunctuator_of_isWall {text : String} (other : text ≠ "\x7d") :
    wall.isPunctuator text = false := by
  simp only [Token.isWall, isKeyword, isPunctuator, Bool.or_eq_true, Bool.and_eq_true, beq_iff_eq] at isWall
  rcases isWall with ⟨kind, -⟩ | ⟨kind, text⟩
  · simp [isPunctuator, kind]
  · simp [isPunctuator, text, Ne.symm other]

theorem not_literal_of_isWall : wall.kind ≠ .literal := by
  simp only [Token.isWall, isKeyword, isPunctuator, Bool.or_eq_true, Bool.and_eq_true, beq_iff_eq] at isWall
  rcases isWall with ⟨kind, -⟩ | ⟨kind, -⟩ <;> simp [kind]

theorem not_opensAttribute_of_isWall : wall.opensAttribute = false := by
  rw [opensAttribute, not_isKeyword_of_isWall isWall (by decide)]
  simp only [Token.isWall, isKeyword, isPunctuator, Bool.or_eq_true, Bool.and_eq_true, beq_iff_eq] at isWall
  rcases isWall with ⟨-, text⟩ | ⟨-, text⟩ <;> simp [text]

end Wall

namespace Ahead

variable {same : Nat → Nat → Prop} {count : Nat} {left right : List Token}

/-- Both texts end, or begin to differ, or go on with the same token. -/
theorem cases_head (ahead : Ahead same count left right) :
    (left = [] ∧ right = [] ∧ count = 0) ∨
    (∃ wall rest wall' rest', left = wall :: rest ∧ right = wall' :: rest' ∧
      wall.isWall = true ∧ wall'.lexeme = wall.lexeme ∧ count = 0) ∨
    ∃ token rest token' rest' more, left = token :: rest ∧ right = token' :: rest' ∧
      Alike same token token' ∧ Ahead same more rest rest' ∧ count = more + 1 := by
  cases ahead with
  | done => exact .inl ⟨rfl, rfl, rfl⟩
  | border borders others =>
      obtain ⟨wall, wall', back, back', rfl, rfl, isWall, lexeme⟩ := borders.head
      exact .inr (.inl ⟨wall, _, wall', _, rfl, rfl, isWall, lexeme, rfl⟩)
  | cons alike others => exact .inr (.inr ⟨_, _, _, _, _, rfl, rfl, alike, others, rfl⟩)

theorem head?_lexeme (ahead : Ahead same count left right) :
    right.head?.map lexeme = left.head?.map lexeme := by
  rcases ahead.cases_head with ⟨rfl, rfl, -⟩ | ⟨wall, rest, wall', rest', rfl, rfl, -, lexeme, -⟩ |
    ⟨token, rest, token', rest', more, rfl, rfl, alike, -, -⟩
  · rfl
  · exact congrArg some lexeme
  · exact congrArg some alike.lexeme

/-- A token of the first text in front of a difference is the next of both. -/
theorem of_cons {token : Token} {rest : List Token} (ahead : Ahead same count (token :: rest) right)
    (notWall : token.isWall = false) :
    ∃ token' rest' more, right = token' :: rest' ∧ Alike same token token' ∧
      Ahead same more rest rest' ∧ count = more + 1 := by
  rcases ahead.cases_head with ⟨parts, -⟩ | ⟨wall, _, -, -, parts, -, isWall, -⟩ |
    ⟨_, _, token', rest', more, parts, rfl, alike, others, countEq⟩
  · simp at parts
  · obtain ⟨rfl, -⟩ := List.cons.inj parts
    simp [notWall] at isWall
  · obtain ⟨rfl, rfl⟩ := List.cons.inj parts
    exact ⟨token', rest', more, rfl, alike, others, countEq⟩

/-- In front of a difference the tokens are alike one by one. -/
theorem of_cons_cons {token token' : Token} {rest rest' : List Token}
    (ahead : Ahead same (count + 1) (token :: rest) (token' :: rest')) :
    Alike same token token' ∧ Ahead same count rest rest' := by
  rcases ahead.cases_head with ⟨parts, -⟩ | ⟨-, -, -, -, -, -, -, -, nothing⟩ |
    ⟨_, _, _, _, more, parts, parts', alike, others, countEq⟩
  · simp at parts
  · simp at nothing
  · obtain ⟨rfl, rfl⟩ := List.cons.inj parts
    obtain ⟨rfl, rfl⟩ := List.cons.inj parts'
    obtain rfl : count = more := Nat.succ.inj countEq
    exact ⟨alike, others⟩

theorem drop (ahead : Ahead same count left right) {skip : Nat} (short : skip ≤ count) :
    Ahead same (count - skip) (left.drop skip) (right.drop skip) := by
  induction skip generalizing count left right with
  | zero => exact ahead
  | succ skip ih =>
      rcases ahead.cases_head with ⟨-, -, rfl⟩ | ⟨-, -, -, -, -, -, -, -, rfl⟩ |
        ⟨token, rest, token', rest', more, rfl, rfl, -, others, rfl⟩
      · omega
      · omega
      · rw [List.drop_succ_cons, List.drop_succ_cons, Nat.add_sub_add_right]
        exact ih others (by omega)

end Ahead

/-! Tests of the next token. -/

/-- Both texts have a next token, or none of them has. -/
theorem cases_of_head? {left right : List Token} (same : right.head?.map lexeme = left.head?.map lexeme) :
    left = [] ∧ right = [] ∨ ∃ token rest token' rest', left = token :: rest ∧
      right = token' :: rest' ∧ token'.lexeme = token.lexeme := by
  cases left with
  | nil =>
      cases right with
      | nil => exact .inl ⟨rfl, rfl⟩
      | cons => simp at same
  | cons token rest =>
      cases right with
      | nil => simp at same
      | cons token' rest' => exact .inr ⟨token, rest, token', rest', rfl, rfl, by simpa using same⟩

theorem any_of_head? {left right : List Token} (same : right.head?.map lexeme = left.head?.map lexeme)
    {test : Token → Bool} (respects : ∀ left right, right.lexeme = left.lexeme → test right = test left) :
    right.head?.any test = left.head?.any test := by
  rcases cases_of_head? same with ⟨rfl, rfl⟩ | ⟨token, rest, token', rest', rfl, rfl, lexeme⟩
  · rfl
  · exact respects token token' lexeme

theorem startsWith_of_head? {left right : List Token} (same : right.head?.map lexeme = left.head?.map lexeme)
    (text : String) : startsWith right text = startsWith left text :=
  any_of_head? same fun _ _ alike => isPunctuator_of_lexeme alike text

theorem startsWithKeyword_of_head? {left right : List Token}
    (same : right.head?.map lexeme = left.head?.map lexeme) (text : String) :
    startsWithKeyword right text = startsWithKeyword left text :=
  any_of_head? same fun _ _ alike => isKeyword_of_lexeme alike text

theorem startsWithIdentifier_of_head? {left right : List Token}
    (same : right.head?.map lexeme = left.head?.map lexeme) :
    startsWithIdentifier right = startsWithIdentifier left :=
  any_of_head? same fun _ _ => isIdentifier_of_lexeme

/-! Counts of tokens that are taken alike. -/

/-- A count of tokens ahead is the same in both texts, as far as it stays in front of the first difference;
else what follows the counted tokens lies ahead in both texts. -/
def Tracks (same : Nat → Nat → Prop) (count : Nat) (left right : List Token) (taken taken' : Nat) : Prop :=
  (taken' = taken ∧ taken ≤ count) ∨
    (count < taken ∧ ∃ more, Ahead same more (left.drop taken) (right.drop taken'))

namespace Tracks

variable {same : Nat → Nat → Prop} {count taken taken' : Nat} {left right : List Token}

theorem ahead (tracks : Tracks same count left right taken taken')
    (whole : Ahead same count left right) :
    ∃ more, Ahead same more (left.drop taken) (right.drop taken') := by
  rcases tracks with ⟨rfl, short⟩ | ⟨-, far⟩
  · exact ⟨_, whole.drop short⟩
  · exact far

theorem succ {token token' : Token} (tracks : Tracks same count left right taken taken') :
    Tracks same (count + 1) (token :: left) (token' :: right) (taken + 1) (taken' + 1) := by
  rcases tracks with ⟨rfl, short⟩ | ⟨long, far⟩
  · exact .inl ⟨rfl, by omega⟩
  · exact .inr ⟨by omega, far⟩

theorem add {more more' : Nat} (first : Tracks same count left right taken taken')
    (whole : Ahead same count left right)
    (second : ∀ count, Ahead same count (left.drop taken) (right.drop taken') →
      Tracks same count (left.drop taken) (right.drop taken') more more') :
    Tracks same count left right (taken + more) (taken' + more') := by
  obtain ⟨rest, further⟩ := first.ahead whole
  rcases first with ⟨rfl, short⟩ | ⟨long, -⟩
  · rcases second _ (whole.drop short) with ⟨rfl, short'⟩ | ⟨long, others, far⟩
    · exact .inl ⟨rfl, by omega⟩
    · rw [List.drop_drop, List.drop_drop] at far
      exact .inr ⟨by omega, others, far⟩
  · obtain ⟨others, far⟩ := (second rest further).ahead further
    rw [List.drop_drop, List.drop_drop] at far
    exact .inr ⟨by omega, others, far⟩

end Tracks

/-! Groups of brackets may end behind a difference. -/

namespace Ahead

variable {same : Nat → Nat → Prop} {count : Nat} {left right : List Token}

theorem groupLength_border {opening closing : String} {stretch : List Token}
    (others : ∀ token ∈ stretch, token.isPunctuator opening = false ∧ token.isPunctuator closing = false)
    (depth : Nat) (rest : List Token) :
    groupLength opening closing depth 0 (stretch ++ rest) =
      stretch.length + groupLength opening closing depth 0 rest := by
  induction stretch with
  | nil => simp
  | cons token stretch ih =>
      obtain ⟨⟨notOpening, notClosing⟩, others⟩ := List.forall_mem_cons.mp others
      have one := groupLength_add opening closing depth 0 1 (stretch ++ rest)
      simp only [List.cons_append, Token.groupLength, notOpening, notClosing, Bool.false_eq_true, if_false]
      rw [one, ih others, List.length_cons]
      omega

theorem groupLength {opening closing : String}
    (brackets : ∀ token : Token, token.isGroupMark = false →
      token.isPunctuator opening = false ∧ token.isPunctuator closing = false)
    (depth : Nat) (ahead : Ahead same count left right) :
    Tracks same count left right (Token.groupLength opening closing depth 0 left)
      (Token.groupLength opening closing depth 0 right) := by
  induction ahead generalizing depth with
  | done => exact .inl ⟨rfl, Nat.le_refl _⟩
  | @border stretch stretch' rest rest' count borders others ih =>
      obtain ⟨noBracket, noBracket'⟩ := borders.noBracket
      obtain ⟨wall, -, back, -, parts, -⟩ := borders.head
      obtain ⟨more, far⟩ := (ih depth).ahead others
      rw [groupLength_border fun token member => brackets token (noBracket token member),
        groupLength_border fun token member => brackets token (noBracket' token member)]
      have solid : 0 < stretch.length := by
        rw [parts, List.length_cons]
        exact Nat.succ_pos _
      refine .inr ⟨Nat.add_pos_left solid _, more, ?_⟩
      rwa [List.drop_length_add_append, List.drop_length_add_append]
  | @cons token token' rest rest' count alike others ih =>
      have step (depth : Nat) : Token.groupLength opening closing depth 1 rest =
          Token.groupLength opening closing depth 0 rest + 1 := groupLength_add _ _ _ 0 1 _
      have step' (depth : Nat) : Token.groupLength opening closing depth 1 rest' =
          Token.groupLength opening closing depth 0 rest' + 1 := groupLength_add _ _ _ 0 1 _
      rw [Token.groupLength, Token.groupLength, isPunctuator_of_lexeme alike.lexeme,
        isPunctuator_of_lexeme alike.lexeme, step, step, step, step', step', step']
      split_ifs
      · exact (ih _).succ
      · exact .inl ⟨rfl, by omega⟩
      · exact (ih _).succ
      · exact (ih _).succ

theorem squareLength (depth : Nat) (ahead : Ahead same count left right) :
    Tracks same count left right (Token.groupLength "[" "]" depth 0 left)
      (Token.groupLength "[" "]" depth 0 right) := by
  refine ahead.groupLength (fun token noBracket => ?_) depth
  simp only [isGroupMark, Bool.or_eq_false_iff] at noBracket
  exact ⟨noBracket.1.2, noBracket.2⟩

theorem roundLength (depth : Nat) (ahead : Ahead same count left right) :
    Tracks same count left right (Token.groupLength "(" ")" depth 0 left)
      (Token.groupLength "(" ")" depth 0 right) := by
  refine ahead.groupLength (fun token noBracket => ?_) depth
  simp only [isGroupMark, Bool.or_eq_false_iff] at noBracket
  exact noBracket.1.1

theorem attributesLength_pair (first second : Token) (rest : List Token) :
    Token.attributesLength 0 (first :: second :: rest) =
      if first.isPunctuator "[" && second.isPunctuator "[" then
        2 + (Token.groupLength "[" "]" 2 0 rest +
          Token.attributesLength 0 (rest.drop (Token.groupLength "[" "]" 2 0 rest)))
      else if first.opensAttribute && second.isPunctuator "(" then
        2 + (Token.groupLength "(" ")" 1 0 rest +
          Token.attributesLength 0 (rest.drop (Token.groupLength "(" ")" 1 0 rest)))
      else 0 := by
  have one := groupLength_add "[" "]" 2 0 1 rest
  rw [Token.attributesLength]
  split_ifs
  · rw [show Token.groupLength "[" "]" 2 1 rest = Token.groupLength "[" "]" 2 0 rest + 1 from one,
      attributesLength_add, List.drop_succ_cons]
    omega
  · rw [attributesLength_add]
    omega
  · rfl

theorem attributesLength (ahead : Ahead same count left right) :
    Tracks same count left right (Token.attributesLength 0 left) (Token.attributesLength 0 right) := by
  induction sizeEq : left.length using Nat.strongRecOn generalizing count left right with
  | ind size ih =>
      have nothing {count : Nat} {left right : List Token} (none : Token.attributesLength 0 left = 0)
          (none' : Token.attributesLength 0 right = 0) :
          Tracks same count left right (Token.attributesLength 0 left)
            (Token.attributesLength 0 right) := .inl ⟨none'.trans none.symm, by omega⟩
      rcases ahead.cases_head with ⟨rfl, rfl, -⟩ | ⟨wall, rest, wall', rest', rfl, rfl, isWall, lexeme, -⟩ |
        ⟨first, tail, first', tail', more, rfl, rfl, alike, others, rfl⟩
      · exact nothing (by simp [Token.attributesLength]) (by simp [Token.attributesLength])
      · have square {token : Token} (sameWall : token.lexeme = wall.lexeme) :
            token.isPunctuator "[" = false :=
          (isPunctuator_of_lexeme sameWall "[").trans (not_isPunctuator_of_isWall isWall (by decide))
        have noGroup {token : Token} (sameWall : token.lexeme = wall.lexeme) (rest : List Token) :
            (token.opensAttribute && startsWith rest "(") = false := by
          rw [opensAttribute_of_lexeme sameWall, not_opensAttribute_of_isWall isWall, Bool.false_and]
        exact nothing (attributesLength_of_first (square rfl) (noGroup rfl rest) 0)
          (attributesLength_of_first (square lexeme) (noGroup lexeme rest') 0)
      · rcases others.cases_head with ⟨rfl, rfl, -⟩ |
          ⟨wall, rest, wall', rest', rfl, rfl, isWall, lexeme, -⟩ |
          ⟨second, rest, second', rest', more, rfl, rfl, alike', inner, rfl⟩
        · exact nothing (by simp [Token.attributesLength]) (by simp [Token.attributesLength])
        · have notSquare := @not_isPunctuator_of_isWall wall isWall "[" (by decide)
          have notRound := @not_isPunctuator_of_isWall wall isWall "(" (by decide)
          refine nothing ?_ ?_
          · simp [attributesLength_pair, notSquare, notRound]
          · simp [attributesLength_pair, isPunctuator_of_lexeme lexeme, notSquare, notRound]
        · rw [attributesLength_pair, attributesLength_pair, isPunctuator_of_lexeme alike.lexeme,
            isPunctuator_of_lexeme alike'.lexeme, opensAttribute_of_lexeme alike.lexeme,
            isPunctuator_of_lexeme alike'.lexeme]
          have whole (taken taken' : Nat) (tracks : Tracks same more rest rest' taken taken') :
              Tracks same (more + 1 + 1) (first :: second :: rest) (first' :: second' :: rest')
                (2 + taken) (2 + taken') := by
            rw [Nat.add_comm 2, Nat.add_comm 2]
            exact tracks.succ.succ
          split_ifs
          · refine whole _ _ ((inner.squareLength 2).add inner fun count further => ?_)
            exact ih _ (by simp at sizeEq ⊢; omega) further rfl
          · refine whole _ _ ((inner.roundLength 1).add inner fun count further => ?_)
            exact ih _ (by simp at sizeEq ⊢; omega) further rfl
          · exact .inl ⟨rfl, by omega⟩

/-! Names and operators are taken in front of a difference or not at all. -/

theorem scopedNamesLength (ahead : Ahead same count left right) :
    Token.scopedNamesLength right = Token.scopedNamesLength left ∧ Token.scopedNamesLength left ≤ count := by
  induction sizeEq : left.length using Nat.strongRecOn generalizing count left right with
  | ind size ih =>
      rcases ahead.cases_head with ⟨rfl, rfl, -⟩ | ⟨wall, rest, wall', rest', rfl, rfl, isWall, lexeme, -⟩ |
        ⟨first, tail, first', tail', more, rfl, rfl, alike, others, rfl⟩
      · exact ⟨rfl, Nat.zero_le _⟩
      · have notScope := not_isScope_of_isWall isWall
        have notScope' := (isScope_of_lexeme lexeme).trans notScope
        cases rest <;> cases rest' <;> simp [Token.scopedNamesLength, notScope, notScope']
      · rcases others.cases_head with ⟨rfl, rfl, -⟩ |
          ⟨wall, rest, wall', rest', rfl, rfl, isWall, lexeme, -⟩ |
          ⟨second, rest, second', rest', more, rfl, rfl, alike', inner, rfl⟩
        · simp [Token.scopedNamesLength]
        · have notName := not_isIdentifier_of_isWall isWall
          simp [Token.scopedNamesLength, isIdentifier_of_lexeme lexeme, notName]
        · obtain ⟨lengthEq, bound⟩ := ih _ (by simp at sizeEq ⊢; omega) inner rfl
          simp only [Token.scopedNamesLength, isScope_of_lexeme alike.lexeme,
            isIdentifier_of_lexeme alike'.lexeme, lengthEq]
          constructor
          · trivial
          · split_ifs <;> omega

/-- A mark or keyword that no difference begins with. -/
theorem leadLength (ahead : Ahead same count left right) {test : Token → Bool}
    (respects : ∀ left right, right.lexeme = left.lexeme → test right = test left)
    (notWall : ∀ token, token.isWall = true → test token = false) :
    (if right.head?.any test then 1 else 0) = (if left.head?.any test then 1 else 0) ∧
      (if left.head?.any test then 1 else 0) ≤ count := by
  rw [any_of_head? ahead.head?_lexeme respects]
  refine ⟨rfl, ?_⟩
  rcases ahead.cases_head with ⟨rfl, rfl, -⟩ | ⟨wall, rest, wall', rest', rfl, rfl, isWall, -⟩ |
    ⟨first, tail, first', tail', more, rfl, rfl, -, -, rfl⟩
  · exact Nat.zero_le _
  · simp [notWall wall isWall]
  · split_ifs <;> omega

theorem any_second (ahead : Ahead same count left right) {test : Token → Bool} {text : String}
    (respects : ∀ left right, right.lexeme = left.lexeme → test right = test left)
    (notWall : ∀ token, token.isWall = true → test token = false) :
    (right.head?.any test && startsWith (right.drop 1) text) =
      (left.head?.any test && startsWith (left.drop 1) text) := by
  rcases ahead.cases_head with ⟨rfl, rfl, -⟩ | ⟨wall, rest, wall', rest', rfl, rfl, isWall, lexeme, -⟩ |
    ⟨first, tail, first', tail', more, rfl, rfl, alike, others, -⟩
  · rfl
  · simp [respects wall wall' lexeme, notWall wall isWall]
  · simp [respects first first' alike.lexeme, startsWith_of_head? others.head?_lexeme]

theorem memberLeadLength (ahead : Ahead same count left right) :
    Token.memberLeadLength right = Token.memberLeadLength left ∧ Token.memberLeadLength left ≤ count := by
  have keyword : (if startsWithKeyword right "template" then 1 else 0) =
      (if startsWithKeyword left "template" then 1 else 0) ∧
        (if startsWithKeyword left "template" then 1 else 0) ≤ count :=
    ahead.leadLength (fun _ _ alike => isKeyword_of_lexeme alike _)
      fun token isWall => not_isKeyword_of_isWall isWall (by decide)
  have tilde {count : Nat} {left right : List Token} (ahead : Ahead same count left right) :
      (if startsWith right "~" then 1 else 0) = (if startsWith left "~" then 1 else 0) ∧
        (if startsWith left "~" then 1 else 0) ≤ count :=
    ahead.leadLength (fun _ _ alike => isPunctuator_of_lexeme alike _)
      fun token isWall => not_isPunctuator_of_isWall isWall (by decide)
  obtain ⟨keywordEq, keywordBound⟩ := keyword
  obtain ⟨tildeEq, tildeBound⟩ := tilde (ahead.drop keywordBound)
  simp only [Token.memberLeadLength, keywordEq, tildeEq]
  constructor
  · trivial
  · omega

theorem memberLength (ahead : Ahead same count left right) :
    Token.memberLength right = Token.memberLength left ∧ Token.memberLength left ≤ count := by
  obtain ⟨leadEq, leadBound⟩ := ahead.memberLeadLength
  have behind := ahead.drop leadBound
  simp only [Token.memberLength, leadEq]
  generalize Token.memberLeadLength left = lead at leadBound behind ⊢
  generalize left.drop lead = names at behind
  generalize right.drop lead = names' at behind
  rcases behind.cases_head with ⟨rfl, rfl, -⟩ | ⟨wall, rest, wall', rest', rfl, rfl, isWall, lexeme, -⟩ |
    ⟨name, tail, name', tail', more, rfl, rfl, alike, others, moreEq⟩
  · exact ⟨rfl, leadBound⟩
  · simp [isIdentifier_of_lexeme lexeme, not_isIdentifier_of_isWall isWall, leadBound]
  · obtain ⟨namesEq, namesBound⟩ := others.scopedNamesLength
    simp only [isIdentifier_of_lexeme alike.lexeme, namesEq]
    constructor
    · trivial
    · split_ifs <;> omega

theorem dependentLength_of_name {separator name : Token} {rest after : List Token}
    (isScope : separator.isScope = true) (isName : name.isIdentifier = true)
    (behind : rest.drop (Token.memberLeadLength rest) = name :: after) (passed : Nat) :
    Token.dependentLength passed (separator :: rest) =
      Token.dependentLength (passed + Token.memberLeadLength rest + 2) after := by
  rw [Token.dependentLength, if_pos isScope]
  dsimp only
  split
  next name' after' parts =>
    obtain ⟨rfl, rfl⟩ := List.cons.inj (parts.symm.trans behind)
    rw [if_pos isName]
  next parts => simp [behind] at parts

theorem dependentLength_of_other {separator : Token} {rest : List Token}
    (isScope : separator.isScope = true)
    (other : startsWithIdentifier (rest.drop (Token.memberLeadLength rest)) = false) (passed : Nat) :
    Token.dependentLength passed (separator :: rest) = passed + Token.memberLeadLength rest + 1 := by
  rw [Token.dependentLength, if_pos isScope]
  dsimp only
  split
  next name after parts =>
    rw [parts] at other
    have notName : name.isIdentifier = false := other
    rw [notName, if_neg (by decide)]
  next => rfl

theorem dependentLength (passed : Nat) (ahead : Ahead same count left right) :
    Token.dependentLength passed right = Token.dependentLength passed left ∧
      Token.dependentLength passed left ≤ passed + count := by
  induction sizeEq : left.length using Nat.strongRecOn generalizing passed count left right with
  | ind size ih =>
      rcases ahead.cases_head with ⟨rfl, rfl, -⟩ | ⟨wall, rest, wall', rest', rfl, rfl, isWall, lexeme, -⟩ |
        ⟨first, tail, first', tail', more, rfl, rfl, alike, others, rfl⟩
      · simp [Token.dependentLength]
      · simp [Token.dependentLength, isScope_of_lexeme lexeme, not_isScope_of_isWall isWall]
      · obtain ⟨leadEq, leadBound⟩ := others.memberLeadLength
        have behind := others.drop leadBound
        have sameScope := isScope_of_lexeme alike.lexeme
        cases isScope : first.isScope with
        | false => simp [Token.dependentLength, sameScope, isScope]
        | true =>
            have isScope' := sameScope.trans isScope
            cases isName : startsWithIdentifier (tail.drop (Token.memberLeadLength tail)) with
            | false =>
                have other := (startsWithIdentifier_of_head? behind.head?_lexeme).trans isName
                rw [← leadEq] at other
                rw [dependentLength_of_other isScope isName, dependentLength_of_other isScope' other, leadEq]
                exact ⟨rfl, by omega⟩
            | true =>
                obtain ⟨name, after, parts⟩ : ∃ name after,
                    tail.drop (Token.memberLeadLength tail) = name :: after := by
                  cases parts : tail.drop (Token.memberLeadLength tail) with
                  | nil => simp [parts, startsWithIdentifier] at isName
                  | cons name after => exact ⟨name, after, rfl⟩
                rw [parts] at behind isName
                have isName : name.isIdentifier = true := isName
                have notWall : name.isWall = false := Bool.eq_false_iff.mpr fun isWall => by
                  simp [not_isIdentifier_of_isWall isWall] at isName
                obtain ⟨name', after', more', parts', alikeName, further, moreEq⟩ := behind.of_cons notWall
                have isName' := (isIdentifier_of_lexeme alikeName.lexeme).trans isName
                rw [← leadEq] at parts'
                have shorter := congrArg List.length parts
                simp only [List.length_drop, List.length_cons] at shorter sizeEq
                rw [dependentLength_of_name isScope isName parts,
                  dependentLength_of_name isScope' isName' parts', leadEq]
                obtain ⟨lengthEq, bound⟩ := ih after.length (by omega)
                  (passed + Token.memberLeadLength tail + 2) further rfl
                exact ⟨lengthEq, by omega⟩

theorem takeWhile (test : Token → Bool)
    (respects : ∀ left right, right.lexeme = left.lexeme → test right = test left)
    (ahead : Ahead same count left right) (short : (left.takeWhile test).length ≤ count) :
    (right.takeWhile test).length = (left.takeWhile test).length := by
  induction ahead with
  | done => rfl
  | border borders others =>
      obtain ⟨wall, wall', back, back', rfl, rfl, -, lexeme⟩ := borders.head
      rw [List.cons_append, List.takeWhile_cons] at short ⊢
      rw [List.cons_append, List.takeWhile_cons, respects wall wall' lexeme]
      cases passes : test wall with
      | false => rfl
      | true => simp [passes] at short
  | cons alike others ih =>
      rw [List.takeWhile_cons] at short ⊢
      rw [List.takeWhile_cons, respects _ _ alike.lexeme]
      split
      next passes =>
        rw [if_pos passes, List.length_cons] at short
        rw [List.length_cons, List.length_cons, ih (by omega)]
      next => rfl

/-- An operator is spelled alike, if it ends in front of a difference. -/
theorem operatorLength (ahead : Ahead same count left right)
    (short : Token.operatorLength left ≤ count) :
    Token.operatorLength right = Token.operatorLength left := by
  have spelled (short : (left.takeWhile fun token =>
      token.kind == .punctuator && token.text != "(").length ≤ count) :=
    ahead.takeWhile (fun token => token.kind == .punctuator && token.text != "(")
      (fun _ _ alike => by simp only [kind_of_lexeme alike, text_of_lexeme alike]) short
  rcases ahead.cases_head with ⟨rfl, rfl, -⟩ | ⟨wall, rest, wall', rest', rfl, rfl, isWall, lexeme, -⟩ |
    ⟨first, tail, first', tail', more, rfl, rfl, alike, others, -⟩
  · rfl
  · simp only [Token.operatorLength, isPunctuator_of_lexeme lexeme, kind_of_lexeme lexeme,
      @not_isPunctuator_of_isWall wall isWall "(" (by decide), not_literal_of_isWall isWall,
      Bool.false_and, Bool.false_eq_true, if_false] at short ⊢
    exact spelled short
  · simp only [Token.operatorLength, isPunctuator_of_lexeme alike.lexeme, kind_of_lexeme alike.lexeme,
      startsWith_of_head? others.head?_lexeme] at short ⊢
    split_ifs at short ⊢
    · rfl
    · rfl
    · exact spelled short

end Ahead

end Token

end Requalify
