import Requalify.Proofs.Token.Punctuator
import Requalify.Proofs.Token.Start

/-!
What a chunk is in front of another text. Blanks, closed comments and `::` are the same everywhere; a word
needs that no part of a name follows, a punctuator that no operator character does, and what runs on to
the end of its line needs a line feed.
-/

namespace Requalify

namespace Chunk

def last (chunk : Chunk) : Char :=
  chunk.rest.getLast?.getD chunk.first

/-- How a chunk ends in front of `after`, and in front of which other texts it is the same. -/
inductive Ends (chunk : Chunk) (fresh : Bool) (after : List Char) : Prop
  | withText (nothing : after = [])
  | inLine (feed : after.head? = some '\n')
      (moves : ∀ after', after'.head? = some '\n' → ('(' ∈ after' → '(' ∈ after) →
        chunk.StandsBefore fresh after')
  | blank (kind : chunk.kind = none) (single : chunk.rest = [])
      (isBlank : Text.isAsciiBlank chunk.first = true)
  | closed (solid : Text.isAsciiBlank chunk.last = false)
      (moves : ∀ after', chunk.StandsBefore fresh after')
  | word (solid : Text.isAsciiBlank chunk.last = false)
      (apart : after.head?.any Piece.isNamePart = false)
      (moves : ∀ after', Piece.SameBreak after after' → ('(' ∈ after' → '(' ∈ after) →
        chunk.StandsBefore fresh after')
  | mark (solid : Text.isAsciiBlank chunk.last = false)
      (moves : ∀ after', Piece.SameMark chunk.last after after' → chunk.StandsBefore fresh after')

open Piece

variable {fresh : Bool} {c : Char} {rest after : List Char}

theorem ends_of_lineComment (fits : 1 + ((rest ++ after).takeWhile (· != '\n')).length =
    ('/' :: rest).length) : Ends ⟨none, '/', '/' :: rest⟩ fresh after := by
  have size : ((rest ++ after).takeWhile (· != '\n')).length = rest.length := by
    rw [List.length_cons] at fits
    omega
  obtain ⟨plain, feed⟩ := length_takeWhile_append.mp size
  cases after with
  | nil => exact .withText rfl
  | cons d after =>
      refine .inLine (by simpa using feed) fun after' same _ => ?_
      have fits' := length_takeWhile_append.mpr ⟨plain, show after'.head?.any (· != '\n') = false by
        simp [same]⟩
      have piece : Piece.first fresh '/' ('/' :: (rest ++ after')) =
          .gap (1 + ((rest ++ after').takeWhile (· != '\n')).length) := rfl
      rw [StandsBefore, List.cons_append, piece, fits', List.length_cons, Nat.add_comm]
      rfl

/-- A closed comment is the same in front of everything. -/
theorem moves_of_blockComment (fits : commentLength 1 (rest ++ after) = ('*' :: rest).length)
    (goesOn : after ≠ []) : rest.getLast? = some '/' ∧
      ∀ after', StandsBefore ⟨none, '/', '*' :: rest⟩ fresh after' := by
  rw [List.length_cons, Nat.add_comm] at fits
  obtain ⟨slash, moves⟩ := commentLength_append fits goesOn
  refine ⟨slash, fun after' => ?_⟩
  have piece : Piece.first fresh '/' ('*' :: (rest ++ after')) =
      .gap (commentLength 1 (rest ++ after')) := rfl
  rw [StandsBefore, List.cons_append, piece, moves, List.length_cons, Nat.add_comm]
  rfl

theorem ends_of_blockComment (fits : commentLength 1 (rest ++ after) = ('*' :: rest).length) :
    Ends ⟨none, '/', '*' :: rest⟩ fresh after := by
  by_cases atEnd : after = []
  · exact .withText atEnd
  · obtain ⟨slash, moves⟩ := moves_of_blockComment fits atEnd
    refine .closed ?_ moves
    simp [last, List.getLast?_cons, slash]
    decide

theorem ends_of_directive (fits : directiveLength (.code false) 0 (rest ++ after) = rest.length) :
    Ends ⟨none, '#', rest⟩ true after := by
  obtain ⟨atEnd | feed, moves⟩ := directiveLength_append (fits.trans (Nat.zero_add _).symm)
  · exact .withText atEnd
  · refine .inLine feed fun after' same _ => ?_
    have piece : Piece.first true '#' (rest ++ after') =
        .gap (directiveLength (.code false) 0 (rest ++ after')) := rfl
    rw [StandsBefore, piece, moves after' (same.trans feed.symm), Nat.zero_add]
    rfl

/-- What a gap is. -/
theorem StandsBefore.gap_cases (stands : StandsBefore ⟨none, c, rest⟩ fresh after) :
    (Text.isAsciiBlank c = true ∧ rest = []) ∨
    (∃ body, c = '/' ∧ rest = '/' :: body ∧
      1 + ((body ++ after).takeWhile (· != '\n')).length = rest.length) ∨
    (∃ body, c = '/' ∧ rest = '*' :: body ∧ commentLength 1 (body ++ after) = rest.length) ∨
    (c = '#' ∧ fresh = true ∧ directiveLength (.code false) 0 (rest ++ after) = rest.length) := by
  have piece : Piece.first fresh c (rest ++ after) = .gap rest.length := stands
  have begins : BeginsGap fresh c (rest ++ after).head? := by
    by_contra isToken
    obtain ⟨kind, more, -, token⟩ := ofToken_within c (rest ++ after)
    rw [first_eq_ofToken isToken, token] at piece
    simp at piece
  rcases begins with isBlank | ⟨rfl, line | block⟩ | ⟨rfl, rfl⟩
  · simp only [Piece.first, isBlank, if_true] at piece
    exact .inl ⟨isBlank, List.length_eq_zero_iff.mp (Piece.gap.inj piece).symm⟩
  · obtain ⟨behind, parts⟩ := List.head?_eq_some_iff.mp line
    rw [parts] at piece
    have size : 1 + (behind.takeWhile (· != '\n')).length = rest.length := Piece.gap.inj piece
    cases rest with
    | nil =>
        rw [List.length_nil] at size
        omega
    | cons d rest =>
        obtain ⟨rfl, rfl⟩ := List.cons.inj parts
        exact .inr (.inl ⟨rest, rfl, rfl, size⟩)
  · obtain ⟨behind, parts⟩ := List.head?_eq_some_iff.mp block
    rw [parts] at piece
    have size : commentLength 1 behind = rest.length := Piece.gap.inj piece
    cases rest with
    | nil =>
        have grows := commentScan.le_length true 1 behind
        rw [← commentLength_eq_scan, size, List.length_nil] at grows
        omega
    | cons d rest =>
        obtain ⟨rfl, rfl⟩ := List.cons.inj parts
        exact .inr (.inr (.inl ⟨rest, rfl, rfl, size⟩))
  · exact .inr (.inr (.inr ⟨rfl, rfl, Piece.gap.inj piece⟩))

theorem StandsBefore.ends_of_gap (stands : StandsBefore ⟨none, c, rest⟩ fresh after) :
    Ends ⟨none, c, rest⟩ fresh after := by
  rcases stands.gap_cases with
    ⟨isBlank, single⟩ | ⟨body, rfl, rfl, size⟩ | ⟨body, rfl, rfl, size⟩ | ⟨rfl, rfl, size⟩
  · exact .blank rfl single isBlank
  · exact ends_of_lineComment size
  · exact ends_of_blockComment size
  · exact ends_of_directive size

theorem solid_of_last {chunk : Chunk} (first : joinsWord chunk.first = true)
    (rest : ∀ d, chunk.rest.getLast? = some d → joinsWord d = true) :
    Text.isAsciiBlank chunk.last = false := by
  apply nonblank_of_joinsWord
  cases lastEq : chunk.rest.getLast? with
  | none => simpa [last, lastEq] using first
  | some d => simpa [last, lastEq] using rest d lastEq

/-- What begins with a name is a word, or a literal with the name in front of its mark. -/
theorem ofName_cases {kind : TokenKind} (fits : ofName c (rest ++ after) = .token kind rest.length) :
    ((∀ d ∈ rest, isNamePart d = true) ∧ after.head?.any isNamePart = false ∧
      (∀ mark, after.head? = some mark → literalLength? (String.ofList (c :: rest)) mark = none) ∧
      kind = wordKind (String.ofList (c :: rest))) ∨
    ∃ front mark body length, rest = front ++ mark :: body ∧
      (∀ d ∈ front, isNamePart d = true) ∧
      literalLength? (String.ofList (c :: front)) mark = some length ∧ kind = .literal ∧
      withSuffix (length (body ++ after)) (body ++ after) = body.length := by
  let front := (rest ++ after).takeWhile isNamePart
  let behind := (rest ++ after).dropWhile isNamePart
  have whole : rest ++ after = front ++ behind := List.takeWhile_append_dropWhile.symm
  obtain ⟨parts, apart⟩ := nameLength_append.mp (show nameLength (front ++ behind) = front.length by
    rw [← whole, nameLength])
  clear_value front behind
  rw [whole] at fits
  cases literal : behind.head?.bind (literalLength? (String.ofList (c :: front))) with
  | none =>
      have plain (mark : Char) (first : behind.head? = some mark) :
          literalLength? (String.ofList (c :: front)) mark = none := by
        simpa [first] using literal
      rw [ofName_word parts apart plain] at fits
      obtain ⟨rfl, size⟩ := Piece.token.inj fits
      obtain ⟨rfl, rfl⟩ := List.append_inj whole size.symm
      exact .inl ⟨parts, apart, plain, rfl⟩
  | some length =>
      obtain ⟨mark, first, found⟩ := Option.bind_eq_some_iff.mp literal
      obtain ⟨behind, rfl⟩ := List.head?_eq_some_iff.mp first
      rw [ofName_literal parts found] at fits
      obtain ⟨rfl, size⟩ := Piece.token.inj fits
      obtain ⟨body, rfl, rfl⟩ : ∃ body, rest = front ++ mark :: body ∧ behind = body ++ after := by
        rcases List.append_eq_append_iff.mp whole with ⟨more, longer, -⟩ | ⟨more, longer, others⟩
        · have lengths := congrArg List.length longer
          rw [List.length_append] at lengths
          omega
        · cases more with
          | nil =>
              rw [List.append_nil] at longer
              rw [longer] at size
              omega
          | cons d more =>
              obtain ⟨rfl, rfl⟩ := List.cons.inj others
              exact ⟨more, longer, rfl⟩
      refine .inr ⟨front, mark, body, length, rfl, parts, found, rfl, ?_⟩
      simp only [List.length_append, List.length_cons] at size
      omega

theorem ends_of_name {kind : TokenKind} (start : isNameStart c = true)
    (fits : ofName c (rest ++ after) = .token kind rest.length) :
    Ends ⟨some kind, c, rest⟩ fresh after := by
  have joins := joinsWord_of_namePart (isNamePart_of_nameStart start)
  have moves {after' : List Char} (fits' : ofName c (rest ++ after') = .token kind rest.length) :
      StandsBefore ⟨some kind, c, rest⟩ fresh after' := by
    rw [StandsBefore, first_of_nameStart start]
    exact fits'
  rcases ofName_cases fits with
    ⟨parts, apart, plain, rfl⟩ | ⟨front, mark, body, length, rfl, parts, found, rfl, fits'⟩
  · refine .word (solid_of_last joins fun d last =>
      joinsWord_of_namePart (parts d (List.mem_of_getLast? last))) apart fun after' same _ => ?_
    refine moves (ofName_word parts (same.apart apart) fun mark first => ?_)
    rcases same with ⟨same, -⟩ | other
    · exact plain mark (same.symm.trans first)
    · cases found : literalLength? (String.ofList (c :: rest)) mark with
      | none => rfl
      | some length => simp [first, mark_of_literalLength? found] at other
  · have stands {after' : List Char}
        (closed : withSuffix (length (body ++ after')) (body ++ after') = body.length) :
        StandsBefore ⟨some .literal, c, front ++ mark :: body⟩ fresh after' := by
      refine moves ?_
      rw [List.append_assoc, List.cons_append, ofName_literal parts found, closed]
      simp only [List.length_append, List.length_cons]
      congr 1
      omega
    rcases withSuffix_append (fun _ _ => closes_of_literalLength? found) fits' with
      atEnd | ⟨feed, closed⟩ | ⟨⟨d, last, isLast⟩, apart', closed⟩
    · exact .withText atEnd
    · exact .inLine feed fun after' same mono => stands (closed after' same mono)
    · refine .word (solid_of_last joins ?_) apart' fun after' same mono =>
        stands (closed after' (same.apart apart') mono)
      intro e lastEq
      have same : e = d := by simpa [last, List.getLast?_cons] using lastEq.symm
      rcases isLast with isMark | isPart
      · rw [same, isMark]
        exact (mark_of_literalLength? found).1
      · rw [same]
        exact joinsWord_of_namePart isPart

theorem ends_of_number {kind : TokenKind} (begins : BeginsNumber c (rest ++ after).head?)
    (stands : StandsBefore ⟨some kind, c, rest⟩ fresh after) :
    Ends ⟨some kind, c, rest⟩ fresh after := by
  rw [StandsBefore, first_of_number begins] at stands
  obtain ⟨rfl, size⟩ := Piece.token.inj stands
  obtain ⟨apart, joins, moves⟩ := numberLength_append (size.trans (Nat.zero_add _).symm)
  refine .word (solid_of_last (joinsWord_of_beginsNumber begins) joins) apart fun after' same _ => ?_
  have begins' : BeginsNumber c (rest ++ after').head? := by
    cases rest with
    | cons d rest => exact begins
    | nil =>
        rcases begins with digit | ⟨-, digit⟩
        · exact .inl digit
        · cases after with
          | nil => simp at digit
          | cons d after =>
              have part : isNamePart d = true := by
                simp only [List.nil_append, List.head?_cons, Option.any_some] at digit
                simp [isNamePart, Char.isAlphanum, digit]
              simp [part] at apart
  rw [StandsBefore, first_of_number begins', moves after' same, Nat.zero_add]
  rfl

theorem ends_of_quote {kind : TokenKind} (mark : c = '"' ∨ c = '\'')
    (stands : StandsBefore ⟨some kind, c, rest⟩ fresh after) :
    Ends ⟨some kind, c, rest⟩ fresh after := by
  have joins : joinsWord c = true := by
    rcases mark with rfl | rfl
    · rfl
    · rfl
  have solid : c ≠ '\\' := by
    rcases mark with rfl | rfl
    · decide
    · decide
  rw [StandsBefore, first_of_quote mark] at stands
  obtain ⟨rfl, size⟩ := Piece.token.inj stands
  have moves {after' : List Char}
      (closed : withSuffix (quotedLength c 0 (rest ++ after')) (rest ++ after') = rest.length) :
      StandsBefore ⟨some .literal, c, rest⟩ fresh after' := by
    rw [StandsBefore, first_of_quote mark, closed]
    rfl
  rcases withSuffix_append (fun _ _ => quotedLength_closes solid) size with
    atEnd | ⟨feed, closed⟩ | ⟨⟨d, last, isLast⟩, apart, closed⟩
  · exact .withText atEnd
  · exact .inLine feed fun after' same mono => moves (closed after' same mono)
  · refine .word (solid_of_last joins fun e lastEq => ?_) apart fun after' same mono =>
      moves (closed after' (same.apart apart) mono)
    obtain rfl : d = e := Option.some.inj (last.symm.trans lastEq)
    rcases isLast with rfl | isPart
    · exact joins
    · exact joinsWord_of_namePart isPart

theorem eq_of_scope {kind : TokenKind} (scope : (rest ++ after).head? = some ':')
    (stands : StandsBefore ⟨some kind, ':', rest⟩ fresh after) : kind = .scope ∧ rest = [':'] := by
  obtain ⟨behind, parts⟩ := List.head?_eq_some_iff.mp scope
  have piece : Piece.first fresh ':' (rest ++ after) = .token .scope 1 := by rw [parts]; rfl
  rw [StandsBefore, piece] at stands
  obtain ⟨rfl, size⟩ := Piece.token.inj stands
  obtain ⟨d, rfl⟩ := List.length_eq_one_iff.mp size.symm
  obtain rfl : d = ':' := (List.cons.inj parts).1
  exact ⟨rfl, rfl⟩

theorem ends_of_scope {kind : TokenKind} (scope : (rest ++ after).head? = some ':')
    (stands : StandsBefore ⟨some kind, ':', rest⟩ fresh after) :
    Ends ⟨some kind, ':', rest⟩ fresh after := by
  obtain ⟨rfl, rfl⟩ := eq_of_scope scope stands
  exact .closed (by decide) fun after' => rfl

theorem beginsMark_of_sameMark {after' : List Char} (begins : BeginsMark fresh c after.head?)
    (same : SameMark c after after') : BeginsMark fresh c after'.head? := by
  obtain ⟨token, name, number, literal, scope⟩ := begins
  rcases same with ⟨same, -⟩ | plain | other
  · rw [same]
    exact ⟨token, name, number, literal, scope⟩
  · refine ⟨?_, name, ?_, literal, ?_⟩
    · rintro (blank | ⟨rfl, -⟩ | ⟨rfl, -⟩)
      · exact token (.inl blank)
      · exact absurd plain (by decide)
      · exact absurd plain (by decide)
    · rintro (digit | ⟨rfl, -⟩)
      · exact number (.inl digit)
      · exact absurd plain (by decide)
    · rintro ⟨rfl, -⟩
      exact absurd plain (by decide)
  · have apart (d : Char) (first : after'.head? = some d) : isOperator d = false ∧ d.isDigit = false := by
      simpa [first] using other
    refine ⟨?_, name, ?_, literal, ?_⟩
    · rintro (blank | ⟨-, line | block⟩ | directive)
      · exact token (.inl blank)
      · exact absurd (apart _ line).1 (by decide)
      · exact absurd (apart _ block).1 (by decide)
      · exact token (.inr (.inr directive))
    · rintro (digit | ⟨-, digit⟩)
      · exact number (.inl digit)
      · cases first : after'.head? with
        | none => simp [first] at digit
        | some d => simp [first, (apart d first).2] at digit
    · rintro ⟨-, scope⟩
      exact absurd (apart _ scope).1 (by decide)

theorem stops_of_other {after' : List Char}
    (other : after'.head?.any (fun c => isOperator c || c.isDigit) = false) :
    after'.head?.any isOperator = false := by
  cases after' with
  | nil => rfl
  | cons d after' => exact (Bool.or_eq_false_iff.mp other).1

theorem nonblank_of_operator (operator : isOperator c = true) : Text.isAsciiBlank c = false := by
  cases blank : Text.isAsciiBlank c with
  | false => rfl
  | true =>
      simp only [Text.isAsciiBlank, Bool.or_eq_true, beq_iff_eq] at blank
      rcases blank with (((rfl | rfl) | rfl) | rfl) | rfl
      all_goals exact absurd operator (by decide)

/-- A punctuator stays one where it does not grow. -/
theorem moves_of_mark {kind : TokenKind} (begins : BeginsMark fresh c (rest ++ after).head?)
    (stands : StandsBefore ⟨some kind, c, rest⟩ fresh after) :
    Text.isAsciiBlank (last ⟨some kind, c, rest⟩) = false ∧
      ∀ after', SameMark (last ⟨some kind, c, rest⟩) after after' →
        StandsBefore ⟨some kind, c, rest⟩ fresh after' := by
  rw [StandsBefore, first_of_mark begins] at stands
  have found : ofPunctuator ((c :: rest) ++ after) = .token kind rest.length := stands
  obtain ⟨rfl, alone, known⟩ := ofPunctuator_of_append found rfl
  have stands' {after' : List Char} (begins' : BeginsMark fresh c (rest ++ after').head?)
      (found' : ofPunctuator ((c :: rest) ++ after') = .token .punctuator rest.length) :
      StandsBefore ⟨some .punctuator, c, rest⟩ fresh after' := by
    rw [StandsBefore, first_of_mark begins']
    exact found'
  cases rest with
  | nil =>
      have solid : Text.isAsciiBlank c = false := by
        cases blank : Text.isAsciiBlank c with
        | false => rfl
        | true => exact absurd (.inl blank) begins.token
      refine ⟨solid, fun after' same => stands' (beginsMark_of_sameMark begins same) ?_⟩
      rcases same with ⟨same, dots⟩ | plain | other
      · exact ofPunctuator_same found rfl same dots
      · exact ofPunctuator_plain plain after'
      · rw [ofPunctuator_append (stops_of_other other)]
        exact alone
  | cons d rest =>
      have member : c :: d :: rest ∈ punctuators := known.resolve_left (by simp)
      have operator : isOperator (Chunk.last ⟨some .punctuator, c, d :: rest⟩) = true := by
        refine isOperator_of_mem member _ (List.mem_cons_of_mem c ?_)
        rw [Chunk.last, List.getLast?_eq_some_getLast (List.cons_ne_nil d rest), Option.getD_some]
        exact List.getLast_mem _
      refine ⟨nonblank_of_operator operator, fun after' same => stands' begins ?_⟩
      rcases same with ⟨same, dots⟩ | plain | other
      · exact ofPunctuator_same found rfl same dots
      · simp [operator] at plain
      · rw [ofPunctuator_append (stops_of_other other)]
        exact alone

/-- Every chunk ends in one of these ways. -/
theorem StandsBefore.ends {chunk : Chunk} (stands : chunk.StandsBefore fresh after) :
    chunk.Ends fresh after := by
  obtain ⟨kind, c, rest⟩ := chunk
  cases kind with
  | none => exact stands.ends_of_gap
  | some kind =>
      have token := not_beginsGap stands
      by_cases start : isNameStart c = true
      · rw [StandsBefore, first_of_nameStart start] at stands
        exact ends_of_name start stands
      by_cases number : BeginsNumber c (rest ++ after).head?
      · exact ends_of_number number stands
      by_cases mark : c = '"' ∨ c = '\''
      · exact ends_of_quote mark stands
      by_cases scope : c = ':' ∧ (rest ++ after).head? = some ':'
      · obtain ⟨rfl, scope⟩ := scope
        exact ends_of_scope scope stands
      obtain ⟨solid, moves⟩ :=
        moves_of_mark ⟨token, by simpa using start, number, not_or.mp mark, scope⟩ stands
      exact .mark solid moves

end Chunk

end Requalify
