import Requalify.Proofs.Token.Rewritten
import Requalify.Proofs.Token.Segments

/-!
What the tokens of a text leave out. In front of the first token, between two tokens and behind the last
one stand only gaps, and they are gaps on their own too: what a gap is does not depend on the text behind
it, and a directive that begins on its line in the text begins on its line in the gap alone.
-/

namespace Requalify

namespace Piece

/-- A directive that ends in front of a text ends there without it. -/
theorem directiveLength_alone {state : DirectiveState} {count : Nat} {body after : List Char}
    (fits : directiveLength state count (body ++ after) = count + body.length) :
    directiveLength state count body = count + body.length := by
  obtain ⟨atEnd | feed, -⟩ := directiveLength_append fits
  · simpa [atEnd] using fits
  · simp only [directiveLength_eq_scan] at fits ⊢
    obtain ⟨final, -, -, moves⟩ := directiveScan.length_append fits
    -- The line feed behind the body is nothing that the last step looks for.
    have alone := moves [] trivial fun state c step => by
      rw [feed] at step
      cases state with
      | code escaped => simpa [directiveScan] using step
      | lineComment escaped => simpa [directiveScan] using step
      | blockComment => simpa [directiveScan] using step
    rwa [List.append_nil] at alone

end Piece

namespace Chunk

open Piece

variable {fresh fresh' : Bool} {after : List Char}

/-- A gap stays what it is if the text ends earlier behind it. -/
theorem StandsBefore.alone {chunk : Chunk} {front : List Char} (kind : chunk.kind = none)
    (stands : chunk.StandsBefore fresh (front ++ after)) : chunk.StandsBefore fresh front := by
  obtain ⟨_, c, rest⟩ := chunk
  obtain rfl := kind
  rcases stands.gap_cases with
    ⟨isBlank, rfl⟩ | ⟨body, rfl, rfl, size⟩ | ⟨body, rfl, rfl, size⟩ | ⟨rfl, rfl, size⟩
  · exact standsBefore_of_blank rfl rfl isBlank fresh front
  · have whole : ((body ++ (front ++ after)).takeWhile (· != '\n')).length = body.length := by
      rw [List.length_cons] at size
      omega
    obtain ⟨plain, lineEnd⟩ := length_takeWhile_append.mp whole
    have lineEnd' : front.head?.any (· != '\n') = false := by
      cases front with
      | nil => rfl
      | cons d front => exact lineEnd
    have piece : Piece.first fresh '/' ('/' :: (body ++ front)) =
        .gap (1 + ((body ++ front).takeWhile (· != '\n')).length) := rfl
    rw [StandsBefore, List.cons_append, piece, length_takeWhile_append.mpr ⟨plain, lineEnd'⟩,
      List.length_cons, Nat.add_comm]
    rfl
  · by_cases atEnd : front ++ after = []
    · obtain ⟨rfl, rfl⟩ := List.append_eq_nil_iff.mp atEnd
      exact stands
    · exact (moves_of_blockComment size atEnd).2 front
  · have fits : directiveLength (.code false) 0 (rest ++ front) = 0 + rest.length := by
      cases front with
      | nil =>
          rw [List.append_nil]
          exact directiveLength_alone (size.trans (Nat.zero_add _).symm)
      | cons d front =>
          exact (directiveLength_append (size.trans (Nat.zero_add _).symm)).2 _ rfl
    have piece : Piece.first true '#' (rest ++ front) =
        .gap (directiveLength (.code false) 0 (rest ++ front)) := rfl
    rw [StandsBefore, piece, fits, Nat.zero_add]
    rfl

/-- Gaps are gaps on their own. -/
theorem Reads.alone {gaps : List Chunk} (kinds : ∀ gap ∈ gaps, gap.kind = none)
    (more : fresh = true → fresh' = true) (reads : Reads fresh after gaps) : Reads fresh' [] gaps := by
  induction gaps generalizing fresh fresh' with
  | nil => trivial
  | cons gap gaps ih =>
      obtain ⟨kind, kinds⟩ := List.forall_mem_cons.mp kinds
      obtain ⟨stands, reads⟩ := reads
      refine ⟨?_, ih kinds ?_ reads⟩
      · rw [List.append_nil]
        have here := stands.alone kind
        by_cases same : fresh = fresh'
        · exact same ▸ here
        -- Only a directive asks whether its line is fresh, and it had a fresh one.
        · refine standsBefore_congr here fun hash => ?_
          obtain ⟨_, c, rest⟩ := gap
          obtain rfl := kind
          obtain rfl : c = '#' := hash
          rcases here.gap_cases with
            ⟨isBlank, -⟩ | ⟨-, slash, -⟩ | ⟨-, slash, -⟩ | ⟨-, isFresh, -⟩
          · exact absurd isBlank (by decide)
          · exact absurd slash (by decide)
          · exact absurd slash (by decide)
          · exact isFresh.trans (more isFresh).symm
      · simp only [freshBehind, Bool.and_eq_true, Bool.or_eq_true]
        exact And.imp_right (Or.imp_left more)

theorem tokenize_of_gaps {gaps : List Chunk} (kinds : ∀ gap ∈ gaps, gap.kind = none)
    (reads : Reads fresh after gaps) : tokenize (String.ofList (flatten gaps)) = [] := by
  have alone : Reads true [] gaps := reads.alone kinds fun _ => rfl
  rw [tokenize_of_reads String.toList_ofList.symm alone, tokens_of_gaps kinds]

end Chunk

namespace Token

/-- What `tokens` leave out of a text of `size` bytes, from the offset `start` on. -/
def gaps (start size : Nat) : List Token → List Span
  | [] => [Span.between start size]
  | token :: rest => Span.between start token.start :: gaps token.stop size rest

/-- The part of a text from one offset to another has nothing but blanks, comments and directives. -/
def IsTrivia (text : List Char) (span : Span) : Prop :=
  ∃ covered, Text.slice? text span = some covered ∧ tokenize (String.ofList covered) = []

end Token

namespace Chunk

theorem isTrivia_of_gaps {fresh : Bool} {before after : List Char} {gaps : List Chunk}
    (kinds : ∀ gap ∈ gaps, gap.kind = none) (reads : Reads fresh after gaps) {start stop : Nat}
    (startEq : Text.byteLength before = start)
    (stopEq : start + Text.byteLength (flatten gaps) = stop) :
    Token.IsTrivia (before ++ (flatten gaps ++ after)) (Span.between start stop) := by
  refine ⟨flatten gaps, ?_, tokenize_of_gaps kinds reads⟩
  rw [Span.between_of_le (by omega)]
  exact Text.slice?_of_parts after startEq (by simp only; omega)

theorem kinds_of_tokens_nil {offset : Nat} {chunks : List Chunk} (nothing : tokens offset chunks = []) :
    ∀ chunk ∈ chunks, chunk.kind = none := by
  induction chunks generalizing offset with
  | nil => simp
  | cons chunk chunks ih =>
      obtain ⟨here, later⟩ := List.append_eq_nil_iff.mp nothing
      exact List.forall_mem_cons.mpr ⟨by simpa using here, ih later⟩

theorem isTrivia_of_mem_gaps {fresh : Bool} {before : List Char} {chunks : List Chunk}
    (reads : Reads fresh [] chunks) {offset size : Nat} (offsetEq : Text.byteLength before = offset)
    (sizeEq : offset + Text.byteLength (flatten chunks) = size) :
    ∀ gap ∈ Token.gaps offset size (tokens offset chunks),
      Token.IsTrivia (before ++ flatten chunks) gap := by
  generalize tokensEq : tokens offset chunks = found
  induction found generalizing fresh before chunks offset with
  | nil =>
      have isTrivia := isTrivia_of_gaps (kinds_of_tokens_nil tokensEq) reads offsetEq sizeEq
      rw [List.append_nil] at isTrivia
      simpa [Token.gaps] using isTrivia
  | cons token rest ih =>
      obtain ⟨gaps, chunk, back, rfl, kinds, -, lexeme, start, restEq⟩ := exists_first tokensEq
      obtain ⟨reads, _, behind⟩ := reads_append.mp reads
      have parts : before ++ flatten (gaps ++ chunk :: back) =
          before ++ flatten gaps ++ chunk.text ++ flatten back := by
        simp
      refine List.forall_mem_cons.mpr ⟨?_, ?_⟩
      · rw [flatten_append, ← List.append_nil (flatten (chunk :: back))]
        exact isTrivia_of_gaps kinds reads offsetEq start.symm
      · rw [parts]
        refine ih behind ?_ ?_ restEq
        · rw [Text.byteLength_append, Text.byteLength_append, offsetEq, ← start, lexeme, Token.stop]
        · rw [← sizeEq, flatten_append, flatten_cons, lexeme, Token.stop, start]
          simp only [Text.byteLength_append]
          omega

end Chunk

theorem Token.Placed.slice {text : List Char} {token : Token} {behind : List Token}
    (placed : token.Placed text behind) : Text.slice? text token.span = some token.text.toList ∧
      Text.isBoundary text token.start = true ∧ Text.isBoundary text token.stop = true := by
  obtain ⟨-, before, after, rfl, startEq, -⟩ := placed
  have stopEq : Text.byteLength (before ++ token.text.toList) = token.stop := by
    rw [Text.byteLength_append, startEq, Token.stop]
  refine ⟨Text.slice?_of_parts after startEq ?_, ?_, ?_⟩
  · rw [← Text.byteLength_append, stopEq]
    rfl
  · rw [← startEq]
    exact Text.isBoundary_length _ _
  · rw [← stopEq, ← List.append_assoc]
    exact Text.isBoundary_length _ _

end Requalify
