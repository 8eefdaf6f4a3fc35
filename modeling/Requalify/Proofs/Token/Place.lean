import Requalify.Token.Lexer

/-!
Where tokens stand. Every token is the part of the text at its offset, it begins with a character that
is no blank, and the tokens behind it are what the lexer makes of the text behind it. So tokens follow
each other in the text as they do in the list.
-/

namespace Requalify

theorem Piece.first_nonblank {fresh : Bool} {c : Char} {rest : List Char} {kind : TokenKind}
    {more : Nat} (isToken : Piece.first fresh c rest = .token kind more) :
    Text.isAsciiBlank c = false := by
  cases blank : Text.isAsciiBlank c with
  | false => rfl
  | true => simp [Piece.first, blank] at isToken

theorem tokenizeFrom_gap {offset : Nat} {fresh : Bool} {tokens : List Token} {c : Char}
    {rest : List Char} {more : Nat} (isGap : Piece.first fresh c rest = .gap more) :
    tokenizeFrom offset fresh tokens (c :: rest) =
      tokenizeFrom (offset + c.utf8Size + Text.byteLength (rest.take more)) (fresh || c == '\n')
        tokens (rest.drop more) := by
  rw [tokenizeFrom, isGap]

theorem tokenizeFrom_token {offset : Nat} {fresh : Bool} {tokens : List Token} {c : Char}
    {rest : List Char} {kind : TokenKind} {more : Nat}
    (isToken : Piece.first fresh c rest = .token kind more) :
    tokenizeFrom offset fresh tokens (c :: rest) =
      tokenizeFrom (offset + Text.byteLength (c :: rest.take more)) false
        (⟨kind, String.ofList (c :: rest.take more), offset⟩ :: tokens) (rest.drop more) := by
  rw [tokenizeFrom, isToken]

/-- Induction along the pieces of a text. -/
theorem piecesInduction {motive : Bool → List Char → Prop} (nil : ∀ fresh, motive fresh [])
    (gap : ∀ fresh c rest more, Piece.first fresh c rest = .gap more →
      motive (fresh || c == '\n') (rest.drop more) → motive fresh (c :: rest))
    (token : ∀ fresh c rest kind more, Piece.first fresh c rest = .token kind more →
      motive false (rest.drop more) → motive fresh (c :: rest))
    (fresh : Bool) (text : List Char) : motive fresh text := by
  -- A piece can be longer than one character, so the induction is on the length of the text.
  generalize sizeEq : text.length = size
  induction size using Nat.strongRecOn generalizing fresh text with
  | ind size ih =>
      cases text with
      | nil => exact nil fresh
      | cons c rest =>
          have shorter (more : Nat) : (rest.drop more).length < size := by
            rw [← sizeEq, List.length_drop, List.length_cons]
            omega
          cases piece : Piece.first fresh c rest with
          | gap more => exact gap fresh c rest more piece (ih _ (shorter more) _ _ rfl)
          | token kind more => exact token fresh c rest kind more piece (ih _ (shorter more) _ _ rfl)

theorem tokenizeFrom_eq_append (offset : Nat) (fresh : Bool) (tokens : List Token)
    (text : List Char) :
    tokenizeFrom offset fresh tokens text = tokens.reverse ++ tokenizeFrom offset fresh [] text := by
  induction fresh, text using piecesInduction generalizing offset tokens with
  | nil fresh => simp [tokenizeFrom]
  | gap fresh c rest more piece ih =>
      rw [tokenizeFrom_gap piece, tokenizeFrom_gap piece]
      exact ih _ _
  | token fresh c rest kind more piece ih =>
      rw [tokenizeFrom_token piece, tokenizeFrom_token piece, ih _ (_ :: tokens), ih _ [_]]
      simp

theorem tokenizeFrom_cons {offset : Nat} {fresh : Bool} {c : Char} {rest : List Char}
    {kind : TokenKind} {more : Nat} (isToken : Piece.first fresh c rest = .token kind more) :
    tokenizeFrom offset fresh [] (c :: rest) =
      ⟨kind, String.ofList (c :: rest.take more), offset⟩ ::
        tokenizeFrom (offset + Text.byteLength (c :: rest.take more)) false [] (rest.drop more) := by
  rw [tokenizeFrom_token isToken, tokenizeFrom_eq_append _ _ [_]]
  rfl

/-- The token is the part of `text` at its offset, and `behind` is what the lexer makes of the rest. -/
structure Token.Placed (text : List Char) (token : Token) (behind : List Token) : Prop where
  nonblank : ∃ c rest, token.text.toList = c :: rest ∧ Text.isAsciiBlank c = false
  split : ∃ before after, text = before ++ (token.text.toList ++ after) ∧
    Text.byteLength before = token.start ∧ behind = tokenizeFrom token.stop false [] after

/-- The first token stands behind a gap, and the lexer goes on behind it. -/
theorem tokenizeFrom_first {offset : Nat} {fresh : Bool} {text : List Char} {token : Token}
    {behind : List Token} (tokens : tokenizeFrom offset fresh [] text = token :: behind) :
    ∃ gap after c rest, text = gap ++ (token.text.toList ++ after) ∧
      token.text.toList = c :: rest ∧ Text.isAsciiBlank c = false ∧
      token.start = offset + Text.byteLength gap ∧
      behind = tokenizeFrom token.stop false [] after := by
  induction fresh, text using piecesInduction generalizing offset with
  | nil fresh => simp [tokenizeFrom] at tokens
  | gap fresh c rest more piece ih =>
      rw [tokenizeFrom_gap piece] at tokens
      obtain ⟨gap, after, first, others, textEq, lexeme, nonblank, start, rest'⟩ := ih tokens
      refine ⟨c :: (rest.take more ++ gap), after, first, others, ?_, lexeme, nonblank, ?_, rest'⟩
      · rw [List.cons_append, List.append_assoc, ← textEq, List.take_append_drop]
      · simp only [start, Text.byteLength_cons, Text.byteLength_append]
        omega
  | token fresh c rest kind more piece ih =>
      rw [tokenizeFrom_cons piece] at tokens
      obtain ⟨rfl, rfl⟩ := List.cons.inj tokens
      refine ⟨[], rest.drop more, c, rest.take more, ?_, ?_, Piece.first_nonblank piece, ?_, ?_⟩
      · simp
      · simp
      · simp
      · simp [Token.stop]

theorem tokenizeFrom_placed {whole passed text : List Char} {offset : Nat} {fresh : Bool}
    {token : Token} {behind : List Token} (parts : whole = passed ++ text)
    (offsetEq : Text.byteLength passed = offset)
    (suffix : token :: behind <:+ tokenizeFrom offset fresh [] text) :
    token.Placed whole behind := by
  generalize tokensEq : tokenizeFrom offset fresh [] text = tokens at suffix
  induction tokens generalizing passed text offset fresh with
  | nil => simp at suffix
  | cons first rest ih =>
      obtain ⟨gap, after, c, others, textEq, lexeme, nonblank, start, restEq⟩ :=
        tokenizeFrom_first tokensEq
      have startEq : Text.byteLength (passed ++ gap) = first.start := by
        rw [Text.byteLength_append, offsetEq, start]
      rcases List.suffix_cons_iff.mp suffix with here | later
      · obtain ⟨rfl, rfl⟩ := List.cons.inj here
        exact ⟨⟨c, others, lexeme, nonblank⟩, passed ++ gap, after, by simp [parts, textEq], startEq,
          restEq⟩
      · have passedParts : whole = (passed ++ gap ++ first.text.toList) ++ after := by
          simp [parts, textEq]
        have stopEq : Text.byteLength (passed ++ gap ++ first.text.toList) = first.stop := by
          rw [Text.byteLength_append, startEq, Token.stop]
        exact ih passedParts stopEq restEq.symm later

theorem tokenize_placed {text : String} {token : Token} {behind : List Token}
    (suffix : token :: behind <:+ tokenize text) : token.Placed text.toList behind :=
  tokenizeFrom_placed (List.nil_append text.toList).symm rfl suffix

theorem start_le_of_mem_tokenizeFrom {offset : Nat} {fresh : Bool} {text : List Char} {token : Token}
    (member : token ∈ tokenizeFrom offset fresh [] text) : offset ≤ token.start := by
  generalize tokensEq : tokenizeFrom offset fresh [] text = tokens at member
  induction tokens generalizing text offset fresh with
  | nil => simp at member
  | cons first rest ih =>
      obtain ⟨gap, after, -, -, -, -, -, start, restEq⟩ := tokenizeFrom_first tokensEq
      rcases List.mem_cons.mp member with rfl | inRest
      · omega
      · have later : first.stop ≤ token.start := ih restEq.symm inRest
        have front : first.start ≤ first.stop := Nat.le_add_right _ _
        omega

namespace Token

theorem Placed.stop_le {text : List Char} {token other : Token} {behind : List Token}
    (placed : token.Placed text behind) (member : other ∈ behind) : token.stop ≤ other.start := by
  obtain ⟨-, before, after, -, -, rfl⟩ := placed
  exact start_le_of_mem_tokenizeFrom member

theorem Placed.start_lt_stop {text : List Char} {token : Token} {behind : List Token}
    (placed : token.Placed text behind) : token.start < token.stop := by
  obtain ⟨⟨c, rest, lexeme, -⟩, -⟩ := placed
  have positive := c.utf8Size_pos
  simp only [stop, lexeme, Text.byteLength_cons]
  omega

end Token

theorem tokenize_pairwise (text : String) :
    (tokenize text).Pairwise fun left right => left.stop ≤ right.start := by
  have ordered (tokens : List Token) (suffix : tokens <:+ tokenize text) :
      tokens.Pairwise fun left right => left.stop ≤ right.start := by
    induction tokens with
    | nil => exact List.Pairwise.nil
    | cons token rest ih =>
        exact List.pairwise_cons.mpr ⟨fun other member => (tokenize_placed suffix).stop_le member,
          ih ((List.suffix_cons token rest).trans suffix)⟩
  exact ordered _ (List.suffix_refl _)

end Requalify
