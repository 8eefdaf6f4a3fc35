import Requalify.Proofs.Token.Requalified

/-!
A name written directly in front of `::`. What stands there keeps apart from it, or it is a word, a number
or a literal, and the name becomes a part of it.
-/

namespace Requalify

namespace Piece

variable {name after after' : List Char} (parts : ∀ c ∈ name, isNamePart c = true)

include parts

theorem paren_of_parts (paren : '(' ∈ after' → '(' ∈ after) : '(' ∈ name ++ after' → '(' ∈ after := by
  rw [List.mem_append]
  rintro (inName | later)
  · exact absurd (parts _ inName) (by decide)
  · exact paren later

theorem withSuffix_joined {length : List Char → Nat} {mark : Char} {body : List Char}
    (closes : ∀ body after, length (body ++ after) = body.length →
      after = [] ∨ Closes length mark body after)
    (fits : withSuffix (length (body ++ ':' :: after)) (body ++ ':' :: after) = body.length)
    (paren : '(' ∈ after' → '(' ∈ after) :
    withSuffix (length (body ++ (name ++ ':' :: after'))) (body ++ (name ++ ':' :: after')) =
      (body ++ name).length := by
  obtain ⟨front, suffix, rfl, size, suffixParts, -⟩ := withSuffix_parts fits
  have allParts : ∀ c ∈ suffix ++ name, isNamePart c = true := fun c member =>
    (List.mem_append.mp member).elim (suffixParts c) (parts c)
  have stays : length (front ++ (suffix ++ (name ++ ':' :: after'))) = front.length := by
    rcases closes front (suffix ++ ':' :: after) size with atEnd | ⟨feed, -⟩ | ⟨-, stays⟩
    · simp at atEnd
    · cases suffix with
      | nil => simp at feed
      | cons c suffix =>
          have isFeed : c = '\n' := by simpa using feed
          exact absurd (suffixParts c (by simp)) (by rw [isFeed]; decide)
    · refine stays _ fun member => ?_
      rw [← List.append_assoc] at member
      have colons : '(' ∈ ':' :: after' → '(' ∈ ':' :: after := by simpa using paren
      exact List.mem_append_right _ (paren_of_parts allParts colons member)
  have suffixLength : nameLength (suffix ++ (name ++ ':' :: after')) = (suffix ++ name).length := by
    rw [← List.append_assoc]
    exact nameLength_append.mpr ⟨allParts, rfl⟩
  rw [List.append_assoc, withSuffix, stays, List.drop_left, suffixLength]
  simp only [List.length_append, Nat.add_assoc]

theorem numberLength_name (previous : Char) (count : Nat) (after : List Char) :
    numberLength previous count (name ++ ':' :: after) = count + name.length := by
  induction name generalizing previous count with
  | nil => simp [numberLength, isNamePart]
  | cons c name ih =>
      obtain ⟨part, parts⟩ := List.forall_mem_cons.mp parts
      rw [List.cons_append, numberLength, if_pos (by simp [part]), ih parts, List.length_cons]
      omega

theorem numberLength_joined {previous : Char} {count : Nat} {body : List Char}
    (fits : numberLength previous count (body ++ ':' :: after) = count + body.length) :
    numberLength previous count (body ++ (name ++ ':' :: after')) = count + (body ++ name).length := by
  induction body generalizing previous count with
  | nil => exact numberLength_name parts previous count after'
  | cons c body ih =>
      simp only [List.cons_append, numberLength, List.length_cons] at fits ⊢
      split at fits
      next goesOn =>
        have separates (quote : (body ++ ':' :: after).head?.any Char.isAlphanum = true) :
            (body ++ (name ++ ':' :: after')).head?.any Char.isAlphanum = true := by
          cases body with
          | nil => simp at quote
          | cons d body => exact quote
        have goesOn' : (isNamePart c || c == '.' || ((c == '+' || c == '-') &&
            (previous == 'e' || previous == 'E' || previous == 'p' || previous == 'P')) ||
            c == '\'' && (body ++ (name ++ ':' :: after')).head?.any Char.isAlphanum) = true := by
          simp only [Bool.or_eq_true, Bool.and_eq_true] at goesOn ⊢
          exact goesOn.imp_right fun ⟨mark, quote⟩ => ⟨mark, separates quote⟩
        rw [if_pos goesOn', ih (by omega)]
        omega
      next => omega

end Piece

namespace Chunk

open Piece

variable {fresh : Bool} {chunk : Chunk} {name : String} {after after' : List Char}

/-- The chunk with a name behind it, as one token. -/
def joined (chunk : Chunk) (kind : TokenKind) (name : String) : Chunk :=
  ⟨some kind, chunk.first, chunk.rest ++ name.toList⟩

/-- The chunk is a word, a number or a literal. -/
def isWord (chunk : Chunk) : Bool :=
  chunk.kind.any fun kind => kind != .punctuator && kind != .scope

theorem kind_of_isWord (word : chunk.isWord = true) :
    ∃ kind, chunk.kind = some kind ∧ kind ≠ .punctuator ∧ kind ≠ .scope := by
  simpa [isWord, Option.any_eq_true] using word

/-- The chunk keeps apart from a name that is written in front of the `::` that follows it, or it takes
the name in. -/
inductive MeetsName (chunk : Chunk) (fresh : Bool) (name : String) (after' : List Char) : Prop
  | apart (plain : chunk.isWord = false)
      (stands : chunk.StandsBefore fresh (name.toList ++ ':' :: after'))
  | joined {kind : TokenKind} (word : chunk.isWord = true) (noMark : kind ≠ .punctuator)
      (stands : (chunk.joined kind name).StandsBefore fresh (':' :: after'))

theorem meetsName_of_name {kind : TokenKind} {c : Char} {rest : List Char}
    (isName : IsName name) (start : isNameStart c = true)
    (stands : StandsBefore ⟨some kind, c, rest⟩ fresh (':' :: after))
    (paren : '(' ∈ after' → '(' ∈ after) :
    MeetsName ⟨some kind, c, rest⟩ fresh name after' := by
  have nameParts : ∀ d ∈ name.toList, isNamePart d = true := fun d => isName.isNamePart
  rw [StandsBefore, first_of_nameStart start] at stands
  have fits : Piece.ofName c (rest ++ ':' :: after) = .token kind rest.length := stands
  have joins {kind' : TokenKind}
      (fits : Piece.ofName c ((rest ++ name.toList) ++ ':' :: after') =
        .token kind' (rest ++ name.toList).length) :
      StandsBefore (joined ⟨some kind, c, rest⟩ kind' name) fresh (':' :: after') := by
    rw [StandsBefore, joined, first_of_nameStart start]
    exact fits
  rcases ofName_cases fits with
    ⟨parts, -, -, rfl⟩ | ⟨front, mark, body, length, rfl, parts, found, rfl, closed⟩
  · have all : ∀ d ∈ rest ++ name.toList, isNamePart d = true := fun d member =>
      (List.mem_append.mp member).elim (parts d) (nameParts d)
    refine .joined ?_ ?_ (joins (ofName_word all rfl fun mark first => ?_))
    · unfold wordKind
      split <;> rfl
    · unfold wordKind
      split <;> decide
    · obtain rfl : ':' = mark := Option.some.inj first
      rfl
  · refine .joined rfl (show TokenKind.literal ≠ .punctuator by decide) (joins ?_)
    have closed := withSuffix_joined nameParts (fun _ _ => closes_of_literalLength? found) closed paren
    rw [List.append_assoc, List.append_assoc, List.cons_append, List.append_assoc,
      ofName_literal parts found, closed]
    simp only [List.length_append, List.length_cons]
    congr 1
    omega

theorem meetsName_of_number {kind : TokenKind} {c : Char} {rest : List Char}
    (isName : IsName name) (begins : BeginsNumber c (rest ++ ':' :: after).head?)
    (stands : StandsBefore ⟨some kind, c, rest⟩ fresh (':' :: after)) :
    MeetsName ⟨some kind, c, rest⟩ fresh name after' := by
  have begins' : BeginsNumber c ((rest ++ name.toList) ++ ':' :: after').head? := by
    cases rest with
    | cons d rest => exact begins
    | nil =>
        rcases begins with digit | ⟨-, digit⟩
        · exact .inl digit
        · simp at digit
  rw [StandsBefore, first_of_number begins] at stands
  obtain ⟨rfl, size⟩ := Piece.token.inj stands
  refine .joined rfl (show TokenKind.number ≠ .punctuator by decide) ?_
  have joins : numberLength c 0 (rest ++ (name.toList ++ ':' :: after')) = _ :=
    numberLength_joined (fun d => isName.isNamePart) (size.trans (Nat.zero_add _).symm)
  rw [StandsBefore, joined, first_of_number begins', List.append_assoc, joins, Nat.zero_add]
  rfl

theorem meetsName_of_quote {kind : TokenKind} {c : Char} {rest : List Char}
    (isName : IsName name) (mark : c = '"' ∨ c = '\'')
    (stands : StandsBefore ⟨some kind, c, rest⟩ fresh (':' :: after))
    (paren : '(' ∈ after' → '(' ∈ after) :
    MeetsName ⟨some kind, c, rest⟩ fresh name after' := by
  have solid : c ≠ '\\' := by
    rcases mark with rfl | rfl
    · decide
    · decide
  rw [StandsBefore, first_of_quote mark] at stands
  obtain ⟨rfl, size⟩ := Piece.token.inj stands
  refine .joined rfl (show TokenKind.literal ≠ .punctuator by decide) ?_
  have joins := withSuffix_joined (fun d => isName.isNamePart)
    (fun _ _ => quotedLength_closes solid) size paren
  rw [StandsBefore, joined, first_of_quote mark, List.append_assoc, joins]
  rfl

theorem meetsName_of_gap {c : Char} {rest : List Char}
    (stands : StandsBefore ⟨none, c, rest⟩ fresh (':' :: after)) (after' : List Char) :
    StandsBefore ⟨none, c, rest⟩ fresh after' := by
  -- Only a blank and a closed comment can stand in front of a colon.
  rcases stands.gap_cases with
    ⟨isBlank, rfl⟩ | ⟨body, rfl, rfl, size⟩ | ⟨body, rfl, rfl, size⟩ | ⟨rfl, rfl, size⟩
  · exact standsBefore_of_blank rfl rfl isBlank fresh after'
  · have whole : ((body ++ ':' :: after).takeWhile (· != '\n')).length = body.length := by
      rw [List.length_cons] at size
      omega
    obtain ⟨-, lineEnd⟩ := length_takeWhile_append.mp whole
    exact absurd lineEnd (by simp)
  · exact (moves_of_blockComment size (by simp)).2 after'
  · obtain ⟨atEnd | feed, -⟩ := directiveLength_append (size.trans (Nat.zero_add _).symm)
    · simp at atEnd
    · simp at feed

theorem StandsBefore.meetsName (stands : chunk.StandsBefore fresh (':' :: ':' :: after))
    (isName : IsName name) (paren : '(' ∈ after' → '(' ∈ after) :
    chunk.MeetsName fresh name (':' :: after') := by
  have paren' : '(' ∈ ':' :: after' → '(' ∈ ':' :: after := by simpa using paren
  obtain ⟨kind, c, rest⟩ := chunk
  cases kind with
  | none => exact .apart rfl (meetsName_of_gap stands _)
  | some kind =>
      have token := not_beginsGap stands
      by_cases start : isNameStart c = true
      · exact meetsName_of_name isName start stands paren'
      by_cases number : BeginsNumber c (rest ++ ':' :: ':' :: after).head?
      · exact meetsName_of_number isName number stands
      by_cases mark : c = '"' ∨ c = '\''
      · exact meetsName_of_quote isName mark stands paren'
      by_cases scope : c = ':' ∧ (rest ++ ':' :: ':' :: after).head? = some ':'
      · obtain ⟨rfl, scope⟩ := scope
        obtain ⟨rfl, rfl⟩ := eq_of_scope scope stands
        exact .apart rfl (separator_standsBefore _ _)
      · have begins : BeginsMark fresh c _ :=
          ⟨token, by simpa using start, number, not_or.mp mark, scope⟩
        have isMark : ofPunctuator (c :: (rest ++ ':' :: ':' :: after)) = .token kind rest.length := by
          rw [← first_of_mark begins]
          exact stands
        have size : (c :: rest).length = rest.length + 1 := rfl
        obtain ⟨rfl, -⟩ := ofPunctuator_of_append isMark size
        obtain ⟨d, others, parts, first, -⟩ := isName.parts
        refine .apart rfl ((moves_of_mark begins stands).2 _ (.inr (.inr ?_)))
        have alone : joins (some '<') (some d) = false := joins_nameStart first _
        simpa [parts, joins, show isOperator '<' = true from rfl] using alone

end Chunk

end Requalify
