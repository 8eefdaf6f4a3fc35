import Requalify.Proofs.Text.Character
import Requalify.Proofs.Token.Directives
import Requalify.UsingStatement

/-!
The semicolon of a using-statement is a token. What `UsingStatement.afterBlanks` skips are the blanks and
comments of the lexer, so the semicolon that it finds behind a declaration is the next token of the text,
and it finds that token unless a preprocessor line comes first.
-/

namespace Requalify

namespace UsingStatement

open Chunk

theorem afterComment_eq_drop (count : Nat) (text : List Char) :
    ∃ length, Piece.commentLength count text = count + length ∧
      afterComment text = text.drop length := by
  fun_induction Piece.commentLength count text with
  | case1 count rest => exact ⟨2, rfl, by simp [afterComment]⟩
  | case2 count c rest open_ ih =>
      obtain ⟨length, lengthEq, dropEq⟩ := ih
      refine ⟨length + 1, by omega, ?_⟩
      rw [afterComment.eq_2 c rest open_, dropEq, List.drop_succ_cons]
  | case3 count => exact ⟨0, rfl, rfl⟩

section Blanks

variable {fresh : Bool} {after : List Char} {chunk : Chunk} (stands : chunk.StandsBefore fresh after)

include stands

theorem afterBlanks_of_spacing (spacing : chunk.isSpacing = true) :
    afterBlanks (chunk.text ++ after) = afterBlanks after := by
  obtain ⟨kind, c, rest⟩ := chunk
  obtain ⟨rfl, noHash⟩ : kind = none ∧ c ≠ '#' := by simpa [isSpacing] using spacing
  rcases stands.gap_cases with
    ⟨isBlank, rfl⟩ | ⟨body, rfl, rfl, size⟩ | ⟨body, rfl, rfl, size⟩ | ⟨hash, -⟩
  · change afterBlanks (c :: after) = _
    have noSlash : c ≠ '/' := by
      rintro rfl
      exact absurd isBlank (by decide)
    rw [afterBlanks.eq_3 c after (by simp [noSlash]) (by simp [noSlash]), if_pos isBlank]
  · change afterBlanks ('/' :: '/' :: (body ++ after)) = _
    rw [List.length_cons, Nat.add_comm] at size
    rw [afterBlanks, Text.dropWhile_eq_drop, Nat.add_right_cancel size, List.drop_left]
  · change afterBlanks ('/' :: '*' :: (body ++ after)) = _
    obtain ⟨length, lengthEq, drops⟩ := afterComment_eq_drop 1 (body ++ after)
    have whole : length = body.length := by
      rw [List.length_cons] at size
      omega
    rw [afterBlanks, drops, whole, List.drop_left]
  · exact absurd hash noHash

theorem afterBlanks_of_solid (solid : chunk.isSpacing = false) :
    afterBlanks (chunk.text ++ after) = chunk.text ++ after := by
  obtain ⟨kind, c, rest⟩ := chunk
  have noGap : ¬Piece.BeginsGap false c (rest ++ after).head? := by
    cases kind with
    | none =>
        obtain rfl : c = '#' := by simpa [isSpacing] using solid
        simp [Piece.BeginsGap, Text.isAsciiBlank]
    | some kind =>
        have isToken := Piece.not_beginsGap stands
        exact fun begins => isToken (begins.imp_right (Or.imp_right fun hash => absurd hash.2 (by simp)))
  simp only [Piece.BeginsGap, not_or, not_and] at noGap
  obtain ⟨blank, comment, -⟩ := noGap
  change afterBlanks (c :: (rest ++ after)) = c :: (rest ++ after)
  rw [afterBlanks.eq_3, if_neg blank]
  · intro body slash line
    exact (comment slash).1 (by simp [line])
  · intro body slash block
    exact (comment slash).2 (by simp [block])

end Blanks

/-- What is left behind blanks and comments begins with a token or with a preprocessor line. -/
theorem afterBlanks_flatten {fresh : Bool} {gaps rest : List Chunk}
    (spacing : ∀ gap ∈ gaps, gap.isSpacing = true) (solid : ∀ chunk ∈ rest.head?, chunk.isSpacing = false)
    (reads : Reads fresh [] (gaps ++ rest)) : afterBlanks (flatten (gaps ++ rest)) = flatten rest := by
  induction gaps generalizing fresh with
  | nil =>
      cases rest with
      | nil => simp [afterBlanks]
      | cons chunk rest =>
          have stands := reads.1
          rw [List.append_nil] at stands
          exact afterBlanks_of_solid stands (solid chunk rfl)
  | cons gap gaps ih =>
      obtain ⟨isSpacing, spacing⟩ := List.forall_mem_cons.mp spacing
      rw [List.cons_append] at reads
      obtain ⟨stands, reads⟩ := reads
      rw [List.append_nil] at stands
      rw [List.cons_append, flatten_cons, afterBlanks_of_spacing stands isSpacing, ih spacing reads]

/-- Behind the declaration stands what `afterBlanks` finds there. -/
theorem extent?_behind {text : String} {statement : UsingStatement} {before after : List Char}
    (parts : text.toList = before ++ after) (stop : statement.stop = Text.byteLength before) :
    statement.extent? text =
      match afterBlanks after with
      | ';' :: rest => some {
          statement := Span.between statement.start
            (Text.byteLength text.toList - Text.byteLength rest)
          target := Span.between statement.targetStart statement.stop }
      | _ => none := by
  have split : Text.splitAt? text.toList (min statement.stop (Text.byteLength text.toList)) =
      some (before, after) := by
    rw [Text.splitAt?_eq_some_iff]
    refine ⟨parts, ?_⟩
    rw [parts, Text.byteLength_append, ← stop]
    omega
  rw [extent?]
  simp only [split, Option.bind_eq_bind, Option.bind_some]
  rfl

theorem eq_semicolon {fresh : Bool} {after : List Char} {chunk : Chunk}
    (stands : chunk.StandsBefore fresh after) (first : chunk.first = ';') :
    chunk = ⟨some .punctuator, ';', []⟩ := by
  obtain ⟨kind, c, rest⟩ := chunk
  obtain rfl : c = ';' := first
  have piece : Piece.token .punctuator 0 = .ofKind kind rest.length := stands
  cases kind with
  | none => simp [Piece.ofKind] at piece
  | some kind =>
      obtain ⟨rfl, nothing⟩ := Piece.token.inj piece
      rw [List.length_eq_zero_iff.mp nothing.symm]

theorem first_of_isPunctuator {kind : TokenKind} {offset : Nat} {chunk : Chunk}
    (isSemicolon : Token.isPunctuator ⟨kind, String.ofList chunk.text, offset⟩ ";" = true) :
    chunk.first = ';' := by
  obtain ⟨-, same⟩ : _ ∧ String.ofList chunk.text = ";" := by
    simpa [Token.isPunctuator] using isSemicolon
  have letters : chunk.text = [';'] := by
    rw [← String.toList_ofList (l := chunk.text), same]
    rfl
  exact (List.cons.inj letters).1

theorem tokens_semicolon (offset : Nat) (back : List Chunk) :
    tokens offset (⟨some .punctuator, ';', []⟩ :: back) =
      ⟨.punctuator, ";", offset⟩ :: tokens (offset + 1) back := by
  have lexeme : String.ofList [';'] = ";" := rfl
  have width : Text.byteLength [';'] = 1 := rfl
  simp [tokens, Chunk.text, lexeme, width]

theorem stop_semicolon (offset : Nat) : Token.stop ⟨.punctuator, ";", offset⟩ = offset + 1 := by
  simp [Token.stop, show Char.utf8Size ';' = 1 from rfl]

section Behind

variable {text : String} {statement : UsingStatement} {before : List Char} {fresh : Bool}
  {gaps rest : List Chunk} (parts : text.toList = before ++ flatten (gaps ++ rest))
  (stop : statement.stop = Text.byteLength before) (reads : Reads fresh [] (gaps ++ rest))
  (spacing : ∀ gap ∈ gaps, gap.isSpacing = true)

include parts stop reads spacing

/-- A semicolon is found behind blanks and comments. -/
theorem extent?_of_semicolon {back : List Chunk} (semicolon : rest = ⟨some .punctuator, ';', []⟩ :: back) :
    statement.extent? text = some {
      statement := Span.between statement.start
        (statement.stop + Text.byteLength (flatten gaps) + 1)
      target := Span.between statement.targetStart statement.stop } := by
  have solid : ∀ chunk ∈ rest.head?, chunk.isSpacing = false := by
    rw [semicolon]
    rintro chunk isHead
    rw [← Option.some.inj isHead]
    rfl
  have behind : afterBlanks (flatten (gaps ++ rest)) = ';' :: flatten back := by
    rw [afterBlanks_flatten spacing solid reads, semicolon]
    rfl
  have size : Text.byteLength text.toList - Text.byteLength (flatten back) =
      statement.stop + Text.byteLength (flatten gaps) + 1 := by
    rw [parts, semicolon, stop]
    simp only [flatten_append, flatten_cons, Chunk.text, Text.byteLength_append, Text.byteLength_cons,
      Text.byteLength_nil, show Char.utf8Size ';' = 1 from rfl]
    omega
  rw [extent?_behind parts stop, behind]
  simp only [size]

theorem extent?_of_other (other : ∀ chunk ∈ rest.head?, chunk.isSpacing = false ∧ chunk.first ≠ ';') :
    statement.extent? text = none := by
  rw [extent?_behind parts stop,
    afterBlanks_flatten spacing (fun chunk isHead => (other chunk isHead).1) reads]
  cases rest with
  | nil => rfl
  | cons chunk back =>
      have plain := (other chunk rfl).2
      rw [flatten_cons, Chunk.text, List.cons_append]
      split
      next same => exact absurd (List.cons.inj same).1 plain
      next => rfl

end Behind

/-- The semicolon is found just if it is the next token and no preprocessor line comes before it. -/
theorem extent?_isSome_of_reads {text : String} {statement : UsingStatement} {before : List Char}
    {fresh : Bool} {chunks : List Chunk} (parts : text.toList = before ++ flatten chunks)
    (stop : statement.stop = Text.byteLength before) (reads : Reads fresh [] chunks) :
    (statement.extent? text).isSome = true ↔
      ∃ token ∈ (tokens statement.stop chunks).head?, token.isPunctuator ";" = true ∧
        ∀ line ∈ Chunk.directives statement.stop chunks, ¬line.stop ≤ token.start := by
  obtain ⟨gaps, rest, rfl, spacing, solid⟩ := exists_ahead chunks
  rw [tokens_append, tokens_of_gaps fun gap member => isSpacing_kind (spacing gap member),
    List.nil_append, directives_append, directives_of_spacing spacing, List.nil_append]
  cases rest with
  | nil =>
      rw [extent?_of_other parts stop reads spacing (by simp)]
      simp [tokens]
  | cons next back =>
      by_cases first : next.first = ';'
      · obtain rfl := eq_semicolon (reads_append.mp reads).2.1 first
        rw [extent?_of_semicolon parts stop reads spacing rfl, tokens_semicolon]
        simp only [Option.isSome_some, true_iff]
        refine ⟨_, rfl, rfl, fun line member before => ?_⟩
        have bounds := mem_directives (show line ∈ Chunk.directives (_ + 1) back from member)
        have ordered := line.start_le_stop
        simp only at before
        omega
      · have plain := solid next rfl
        rw [extent?_of_other parts stop reads spacing fun chunk isHead =>
          Option.some.inj isHead ▸ ⟨plain, first⟩]
        refine iff_of_false (by simp) ?_
        rintro ⟨token, isNext, isSemicolon, alone⟩
        cases kind : next.kind with
        | some kind =>
            rw [tokens, kind] at isNext
            obtain rfl := Option.some.inj isNext
            exact first (first_of_isPunctuator isSemicolon)
        | none =>
            -- What is no blank, no comment and no token is a preprocessor line.
            have hash : next.isDirective = true := by
              simpa [isDirective, isSpacing, kind] using plain
            rw [tokens, kind] at isNext
            have later := start_of_mem_tokens (List.mem_of_mem_head? isNext)
            refine alone _ (head_mem_directives hash _ _) ?_
            simp only [Span.between]
            omega

/-- The statement ends with the token behind the declaration, which is a semicolon. -/
theorem extent?_eq_some {text : String} {statement : UsingStatement} {extent : UsingExtent}
    {last : Token} {behind : List Token} (placed : last.Placed text.toList behind)
    (stopEq : statement.stop = last.stop) (found : statement.extent? text = some extent) :
    ∃ semicolon others, behind = semicolon :: others ∧ semicolon.isPunctuator ";" = true ∧
      extent.statement = Span.between statement.start semicolon.stop ∧
      extent.target = Span.between statement.targetStart statement.stop := by
  obtain ⟨-, before, after, parts, startEq, rfl⟩ := placed
  rw [← List.append_assoc] at parts
  have stop : statement.stop = Text.byteLength (before ++ last.text.toList) := by
    rw [stopEq, Text.byteLength_append, startEq, Token.stop]
  obtain ⟨chunks, rfl, reads⟩ := exists_reads false after
  obtain ⟨gaps, rest, rfl, spacing, solid⟩ := exists_ahead chunks
  by_cases isSemicolon : ∃ chunk ∈ rest.head?, chunk.first = ';'
  · obtain ⟨chunk, isHead, first⟩ := isSemicolon
    obtain ⟨back, rfl⟩ := List.head?_eq_some_iff.mp isHead
    obtain rfl := eq_semicolon (reads_append.mp reads).2.1 first
    rw [extent?_of_semicolon parts stop reads spacing rfl, stopEq] at found
    have tokensEq := tokenizeFrom_of_reads reads last.stop
    rw [tokens_append, tokens_of_gaps fun gap member => isSpacing_kind (spacing gap member),
      tokens_semicolon] at tokensEq
    refine ⟨_, _, by simpa using tokensEq, rfl, ?_, ?_⟩
    · rw [← Option.some.inj found, stop_semicolon]
    · rw [← Option.some.inj found, stopEq]
  · have nothing := extent?_of_other parts stop reads spacing fun chunk isHead =>
      ⟨solid chunk isHead, fun first => isSemicolon ⟨chunk, isHead, first⟩⟩
    rw [nothing] at found
    simp at found

end UsingStatement

end Requalify
