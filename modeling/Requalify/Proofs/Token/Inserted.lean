import Requalify.Proofs.Outline.Anonymous
import Requalify.Proofs.Token.Rewritten

/-!
Names put into a list of tokens: one behind the keyword of each anonymous namespace, and others in front of
a `::`, some of which become one token with what they follow. Brackets stay as they are, and no name that is
put in stands in front of one, so no attribute comes in and no keyword gets a brace behind it.
-/

namespace Requalify

namespace Token

def startsWithScope (tokens : List Token) : Bool :=
  tokens.head?.any (·.lexeme == (.scope, "::"))

theorem scope_of_startsWithScope {token : Token} {rest : List Token}
    (scope : startsWithScope (token :: rest) = true) : token.kind = .scope ∧ token.text = "::" := by
  simpa [startsWithScope, lexeme] using scope

/-- `new` is `old` with names put in. -/
inductive Inserted : (old new : List Token) → Prop
  | nil : Inserted [] []
  | keep {token token' : Token} {rest rest' : List Token} (same : token'.lexeme = token.lexeme)
      (other : token.opensAnonymous rest = false) (others : Inserted rest rest') :
      Inserted (token :: rest) (token' :: rest')
  | label {token token' name : Token} {rest rest' : List Token} (same : token'.lexeme = token.lexeme)
      (opens : token.opensAnonymous rest = true) (isName : name.isIdentifier = true)
      (others : Inserted rest rest') : Inserted (token :: rest) (token' :: name :: rest')
  | name {name : Token} {rest rest' : List Token} (isName : name.isIdentifier = true)
      (scope : startsWithScope rest' = true) (others : Inserted rest rest') :
      Inserted rest (name :: rest')
  | separator {colons : Token} {rest rest' : List Token} (same : colons.lexeme = (.scope, "::"))
      (others : Inserted rest rest') : Inserted rest (colons :: rest')
  | joined {token token' : Token} {rest rest' : List Token} (plain : token.kind ≠ .punctuator)
      (word : token'.kind ≠ .punctuator)
      (scope : startsWithScope rest' = true) (others : Inserted rest rest') :
      Inserted (token :: rest) (token' :: rest')

/-- What follows the bracket that closes the innermost of `depth` open groups and all around it. -/
def afterGroup (opening closing : String) (depth : Nat) (tokens : List Token) : List Token :=
  tokens.drop (groupLength opening closing depth 0 tokens)

section Group

variable (opening closing : String) (depth : Nat)

theorem groupLength_add (count more : Nat) (tokens : List Token) :
    groupLength opening closing depth (count + more) tokens =
      groupLength opening closing depth count tokens + more := by
  induction tokens generalizing depth count with
  | nil => rfl
  | cons token rest ih =>
      simp only [groupLength, Nat.add_right_comm count more 1, ih]
      split_ifs <;> rfl

theorem afterGroup_cons (token : Token) (rest : List Token) :
    afterGroup opening closing depth (token :: rest) =
      if token.isPunctuator opening then afterGroup opening closing (depth + 1) rest
      else if token.isPunctuator closing then
        if depth ≤ 1 then rest else afterGroup opening closing (depth - 1) rest
      else afterGroup opening closing depth rest := by
  simp only [afterGroup, groupLength, groupLength_add]
  split_ifs <;> rfl

theorem afterGroup_length (tokens : List Token) :
    (afterGroup opening closing depth tokens).length ≤ tokens.length := by
  rw [afterGroup, List.length_drop]
  omega

end Group

section Attributes

theorem attributesLength_add (count : Nat) (tokens : List Token) :
    attributesLength count tokens = count + attributesLength 0 tokens := by
  generalize sizeEq : tokens.length = size
  induction size using Nat.strongRecOn generalizing count tokens with
  | ind size ih =>
      match tokens with
      | [] => simp [attributesLength]
      | [_] => simp [attributesLength]
      | first :: second :: rest =>
          simp only [List.length_cons] at sizeEq
          rw [attributesLength, attributesLength.eq_1 0]
          split_ifs
          · rw [ih _ (by simp; omega) _ _ rfl, ih _ (by simp; omega) (0 + 1 + _) _ rfl]
            omega
          · rw [ih _ (by simp; omega) _ _ rfl, ih _ (by simp; omega) (0 + 2 + _) _ rfl]
            omega
          · rfl

theorem afterAttributes_cons (first second : Token) (rest : List Token) :
    afterAttributes (first :: second :: rest) =
      if first.isPunctuator "[" && second.isPunctuator "[" then
        afterAttributes (afterGroup "[" "]" 2 rest)
      else if first.opensAttribute && second.isPunctuator "(" then
        afterAttributes (afterGroup "(" ")" 1 rest)
      else first :: second :: rest := by
  rw [afterAttributes, attributesLength]
  split_ifs
  · have group : groupLength "[" "]" 2 1 rest = groupLength "[" "]" 2 0 rest + 1 :=
      groupLength_add "[" "]" 2 0 1 rest
    rw [attributesLength_add, group, List.drop_succ_cons, afterAttributes, afterGroup, List.drop_drop]
    rw [show 0 + 1 + (groupLength "[" "]" 2 0 rest + 1) = groupLength "[" "]" 2 0 rest + 2 by omega]
    rw [Nat.add_right_comm]
    rfl
  · rw [attributesLength_add, afterAttributes, afterGroup, List.drop_drop]
    rw [show 0 + 2 + groupLength "(" ")" 1 0 rest = groupLength "(" ")" 1 0 rest + 2 by omega]
    rw [Nat.add_right_comm]
    rfl
  · rfl

theorem afterAttributes_eq_self {first : Token} {rest : List Token}
    (square : first.isPunctuator "[" = false)
    (round : first.opensAttribute = false ∨ startsWith rest "(" = false) :
    afterAttributes (first :: rest) = first :: rest := by
  cases rest with
  | nil => simp [afterAttributes, attributesLength]
  | cons second rest =>
      have noGroup : (first.opensAttribute && second.isPunctuator "(") = false :=
        Bool.and_eq_false_iff.mpr round
      rw [afterAttributes_cons, square, noGroup]
      rfl

theorem opensAttribute_of_punctuator {token : Token} {text : String}
    (isMark : token.isPunctuator text = true)
    (other : text ≠ "__attribute__" ∧ text ≠ "__declspec") : token.opensAttribute = false := by
  simp only [isPunctuator, Bool.and_eq_true, beq_iff_eq] at isMark
  simp [opensAttribute, isKeyword, isMark.1, isMark.2, other]

theorem not_square_of_opensAttribute {token : Token} (opens : token.opensAttribute = true) :
    token.isPunctuator "[" = false := by
  refine Bool.eq_false_iff.mpr fun square => ?_
  simp only [isPunctuator, Bool.and_eq_true, beq_iff_eq] at square
  simp [opensAttribute, isKeyword, square.1, square.2] at opens

end Attributes

theorem isPunctuator_of_lexeme {token token' : Token} (same : token'.lexeme = token.lexeme)
    (text : String) : token'.isPunctuator text = token.isPunctuator text := by
  obtain ⟨kind, lexeme⟩ := Prod.mk.inj same
  rw [isPunctuator, isPunctuator, kind, lexeme]

theorem kind_of_opensAnonymous {token : Token} {rest : List Token}
    (opens : token.opensAnonymous rest = true) : token.kind = .keyword := by
  simp only [opensAnonymous, isKeyword, Bool.and_eq_true, beq_iff_eq] at opens
  exact opens.1.1

namespace Inserted

variable {old new : List Token}

/-- A punctuator is an old one. -/
theorem of_punctuator {token : Token} {rest : List Token} (inserted : Inserted old (token :: rest))
    (kind : token.kind = .punctuator) :
    ∃ before others, old = before :: others ∧ token.lexeme = before.lexeme ∧ Inserted others rest := by
  cases inserted with
  | keep same other others => exact ⟨_, _, rfl, same, others⟩
  | label same opens isName others =>
      have keyword : token.kind = .keyword :=
        (congrArg Prod.fst same).trans (kind_of_opensAnonymous opens)
      simp [kind] at keyword
  | name isName scope others => simp [kind_of_isIdentifier isName] at kind
  | separator same others => simp [show token.kind = .scope from congrArg Prod.fst same] at kind
  | joined plain word scope others => exact absurd kind word

/-- Groups are as long as before, apart from the names in them. -/
theorem afterGroup (inserted : Inserted old new) (opening closing : String) (depth : Nat) :
    Inserted (Token.afterGroup opening closing depth old)
      (Token.afterGroup opening closing depth new) := by
  have passes {token : Token} (other : token.kind ≠ .punctuator) (depth : Nat) (rest : List Token) :
      Token.afterGroup opening closing depth (token :: rest) =
        Token.afterGroup opening closing depth rest := by
    simp [afterGroup_cons, not_isPunctuator other]
  induction inserted generalizing depth with
  | nil => exact .nil
  | @keep token token' rest rest' same other others ih =>
      rw [afterGroup_cons, afterGroup_cons, isPunctuator_of_lexeme same, isPunctuator_of_lexeme same]
      split_ifs
      · exact ih _
      · exact others
      · exact ih _
      · exact ih _
  | @label token token' name rest rest' same opens isName others ih =>
      have keyword := kind_of_opensAnonymous opens
      have keyword' : token'.kind = .keyword := (congrArg Prod.fst same).trans keyword
      rw [passes (by simp [keyword]), passes (by simp [keyword']),
        passes (by simp [kind_of_isIdentifier isName])]
      exact ih depth
  | name isName scope others ih =>
      rw [passes (by simp [kind_of_isIdentifier isName])]
      exact ih depth
  | @separator colons rest rest' same others ih =>
      rw [passes (by simp [show colons.kind = .scope from congrArg Prod.fst same])]
      exact ih depth
  | @joined token token' rest rest' plain word scope others ih =>
      rw [passes plain, passes word]
      exact ih depth

/-- A word that is put in, or that a name has joined, is no attribute. -/
theorem of_attribute (inserted : Inserted old new) {first second : Token} {rest : List Token}
    (parts : new = first :: second :: rest) (opens : first.opensAttribute = true)
    (bracket : second.isPunctuator "(" = true) :
    ∃ before other others, old = before :: other :: others ∧ before.opensAttribute = true ∧
      other.isPunctuator "(" = true ∧ Inserted others rest := by
  have kind := kind_of_isPunctuator bracket
  have apart (scope : startsWithScope (second :: rest) = true) : False := by
    have scope := (scope_of_startsWithScope scope).1
    simp [kind] at scope
  cases inserted with
  | nil => simp at parts
  | keep same other others =>
      obtain ⟨rfl, rfl⟩ := List.cons.inj parts
      obtain ⟨before, rest, rfl, same', others⟩ := others.of_punctuator kind
      refine ⟨_, before, rest, rfl, ?_, ?_, others⟩
      · obtain ⟨sameKind, lexeme⟩ := Prod.mk.inj same
        simpa [opensAttribute, isKeyword, sameKind, lexeme] using opens
      · rw [← isPunctuator_of_lexeme same']
        exact bracket
  | label same opens isName others =>
      obtain ⟨rfl, rfl⟩ := List.cons.inj (List.cons.inj parts).2
      simp [kind_of_isIdentifier isName] at kind
  | name isName scope others =>
      obtain ⟨rfl, rfl⟩ := List.cons.inj parts
      exact (apart scope).elim
  | separator same others =>
      obtain ⟨rfl, rfl⟩ := List.cons.inj parts
      obtain ⟨sameKind, lexeme⟩ := Prod.mk.inj same
      simp [opensAttribute, isKeyword, sameKind, lexeme] at opens
  | joined plain word scope others =>
      obtain ⟨rfl, rfl⟩ := List.cons.inj parts
      exact (apart scope).elim

/-- What has only attributes in front of a brace has had only them there. -/
theorem brace (inserted : Inserted old new) (brace : startsWith (afterAttributes new) "\x7b" = true) :
    startsWith (afterAttributes old) "\x7b" = true := by
  generalize sizeEq : new.length = size
  induction size using Nat.strongRecOn generalizing old new with
  | ind size ih =>
      have atOnce {first : Token} {rest : List Token} (parts : new = first :: rest)
          (isBrace : first.isPunctuator "\x7b" = true) :
          startsWith (afterAttributes old) "\x7b" = true := by
        obtain ⟨before, others, rfl, same, -⟩ :=
          (parts ▸ inserted).of_punctuator (kind_of_isPunctuator isBrace)
        rw [isPunctuator_of_lexeme same] at isBrace
        have square := not_isPunctuator_of_isPunctuator isBrace (show "\x7b" ≠ "[" by decide)
        rw [afterAttributes_eq_self square (.inl (opensAttribute_of_punctuator isBrace (by decide)))]
        exact isBrace
      match new with
      | [] => simp [afterAttributes, startsWith] at brace
      | [first] =>
          have alone : afterAttributes [first] = [first] := by simp [afterAttributes, attributesLength]
          rw [alone] at brace
          exact atOnce rfl brace
      | first :: second :: rest =>
          simp only [List.length_cons] at sizeEq
          rw [afterAttributes_cons] at brace
          split_ifs at brace with square round
          · obtain ⟨isFirst, isSecond⟩ := Bool.and_eq_true_iff.mp square
            obtain ⟨before, others, rfl, same, inserted⟩ :=
              inserted.of_punctuator (kind_of_isPunctuator isFirst)
            obtain ⟨before', others, rfl, same', inserted⟩ :=
              inserted.of_punctuator (kind_of_isPunctuator isSecond)
            rw [isPunctuator_of_lexeme same] at isFirst
            rw [isPunctuator_of_lexeme same'] at isSecond
            rw [afterAttributes_cons, isFirst, isSecond]
            have shorter := afterGroup_length "[" "]" 2 rest
            exact ih _ (by omega) (inserted.afterGroup "[" "]" 2) brace rfl
          · obtain ⟨isFirst, isSecond⟩ := Bool.and_eq_true_iff.mp round
            obtain ⟨before, other, others, rfl, opens, isRound, inserted⟩ :=
              inserted.of_attribute rfl isFirst isSecond
            rw [afterAttributes_cons, not_square_of_opensAttribute opens, opens, isRound]
            have shorter := afterGroup_length "(" ")" 1 rest
            exact ih _ (by omega) (inserted.afterGroup "(" ")" 1) brace rfl
          · exact atOnce rfl brace

/-- No name goes in front of a parenthesis. -/
theorem startsWith_paren (inserted : Inserted old new) (paren : startsWith new "(" = true) :
    startsWith old "(" = true := by
  cases parts : new with
  | nil => simp [parts, startsWith] at paren
  | cons token rest =>
      rw [parts] at inserted paren
      have isParen : token.isPunctuator "(" = true := paren
      obtain ⟨before, others, rfl, same, -⟩ :=
        inserted.of_punctuator (kind_of_isPunctuator isParen)
      rwa [isPunctuator_of_lexeme same] at isParen

end Inserted

theorem not_opensAnonymous_of_kind {token : Token} (rest : List Token)
    (other : token.kind ≠ .keyword) : token.opensAnonymous rest = false :=
  Bool.eq_false_iff.mpr fun opens => other (kind_of_opensAnonymous opens)

theorem not_opensAnonymous {token next : Token} {rest : List Token}
    (kind : next.kind ≠ .punctuator)
    (round : next.opensAttribute = false ∨ startsWith rest "(" = false) :
    token.opensAnonymous (next :: rest) = false := by
  have notBrace : startsWith (next :: rest) "\x7b" = false := not_isPunctuator kind _
  rw [opensAnonymous, afterAttributes_eq_self (not_isPunctuator kind _) round, notBrace,
    Bool.and_false]

/-- What may stand directly behind the keyword of an anonymous namespace. -/
theorem text_of_opensAnonymous {token next : Token} {rest : List Token}
    (opens : token.opensAnonymous (next :: rest) = true) :
    next.text ∈ ["[", "\x7b", "alignas", "__attribute__", "__declspec"] := by
  by_contra other
  simp only [List.mem_cons, List.not_mem_nil, or_false, not_or] at other
  obtain ⟨square, brace, word, others⟩ := other
  have notSquare : next.isPunctuator "[" = false := by simp [isPunctuator, square]
  have notAttribute : next.opensAttribute = false := by
    simp [opensAttribute, isKeyword, word, others.1, others.2]
  rw [opensAnonymous, afterAttributes_eq_self notSquare (.inl notAttribute)] at opens
  simp [startsWith, isPunctuator, brace] at opens

theorem not_opensAnonymous_of_scope (token : Token) {rest : List Token}
    (scope : startsWithScope rest = true) : token.opensAnonymous rest = false := by
  cases rest with
  | nil => simp [startsWithScope] at scope
  | cons next rest =>
      obtain ⟨kind, text⟩ := scope_of_startsWithScope scope
      exact not_opensAnonymous (by simp [kind]) (.inl (by simp [opensAttribute, isKeyword, kind, text]))

theorem startsWith_of_opensAnonymous {token : Token} {rest : List Token}
    (opens : token.opensAnonymous rest = true) : startsWith rest "(" = false := by
  refine Bool.eq_false_iff.mpr fun paren => ?_
  cases rest with
  | nil => simp [startsWith] at paren
  | cons next rest =>
      have isParen : next.isPunctuator "(" = true := paren
      have square := not_isPunctuator_of_isPunctuator isParen (show "(" ≠ "[" by decide)
      have word := opensAttribute_of_punctuator isParen (by decide)
      have brace := not_isPunctuator_of_isPunctuator isParen (show "(" ≠ "\x7b" by decide)
      simp only [opensAnonymous, Bool.and_eq_true] at opens
      rw [afterAttributes_eq_self square (.inl word)] at opens
      exact absurd opens.2 (by simpa [startsWith] using brace)

namespace Inserted

variable {old new : List Token}

/-- With a name behind its keyword, no namespace is anonymous. -/
theorem named (inserted : Inserted old new) {token : Token} {rest : List Token}
    (within : token :: rest <:+ new) : token.opensAnonymous rest = false := by
  induction inserted with
  | nil => simp at within
  | @keep old new others others' same other inserted ih =>
      rcases List.suffix_cons_iff.mp within with here | later
      · obtain ⟨rfl, rfl⟩ := List.cons.inj here
        obtain ⟨kind, lexeme⟩ := Prod.mk.inj same
        refine Bool.eq_false_iff.mpr fun opens => ?_
        rw [opensAnonymous, Bool.and_eq_true, isKeyword, kind, lexeme] at opens
        rw [opensAnonymous, isKeyword, opens.1, inserted.brace opens.2] at other
        simp at other
      · exact ih later
  | label same opens isName inserted ih =>
      rcases List.suffix_cons_iff.mp within with here | later
      · obtain ⟨rfl, rfl⟩ := List.cons.inj here
        refine not_opensAnonymous (by simp [kind_of_isIdentifier isName])
          (.inr (Bool.eq_false_iff.mpr fun paren => ?_))
        have before := inserted.startsWith_paren paren
        rw [startsWith_of_opensAnonymous opens] at before
        simp at before
      · rcases List.suffix_cons_iff.mp later with here | later
        · obtain ⟨rfl, rfl⟩ := List.cons.inj here
          exact not_opensAnonymous_of_kind _ (by simp [kind_of_isIdentifier isName])
        · exact ih later
  | name isName scope inserted ih =>
      rcases List.suffix_cons_iff.mp within with here | later
      · obtain ⟨rfl, rfl⟩ := List.cons.inj here
        exact not_opensAnonymous_of_scope _ scope
      · exact ih later
  | separator same inserted ih =>
      rcases List.suffix_cons_iff.mp within with here | later
      · obtain ⟨rfl, rfl⟩ := List.cons.inj here
        exact not_opensAnonymous_of_kind _ (by simp [show token.kind = .scope from congrArg Prod.fst same])
      · exact ih later
  | joined plain word scope inserted ih =>
      rcases List.suffix_cons_iff.mp within with here | later
      · obtain ⟨rfl, rfl⟩ := List.cons.inj here
        exact not_opensAnonymous_of_scope _ scope
      · exact ih later

end Inserted

end Token

end Requalify
