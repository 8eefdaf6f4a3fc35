import Mathlib.Data.List.TakeWhile
import Requalify.Proofs.Token.Rewritten

/-!
The preprocessor lines of a text. They are gaps like blanks and comments, and what is left behind a run of
blanks and comments begins with a token or with such a line.
-/

namespace Requalify

/-- The preprocessor lines of `text`, which starts at `offset`. -/
def directivesFrom (offset : Nat) (fresh : Bool) : List Char → List Span
  | [] => []
  | c :: rest =>
      match Piece.first fresh c rest with
      | .gap more =>
          let stop := offset + c.utf8Size + Text.byteLength (rest.take more)
          let others := directivesFrom stop (fresh || c == '\n') (rest.drop more)
          if c = '#' then Span.between offset stop :: others else others
      | .token _ more =>
          directivesFrom (offset + Text.byteLength (c :: rest.take more)) false (rest.drop more)
termination_by text => text.length
decreasing_by all_goals simp only [List.length_drop, List.length_cons]; omega

def directives (text : String) : List Span :=
  directivesFrom 0 true text.toList

namespace Chunk

variable {fresh : Bool} {after : List Char}

def isDirective (chunk : Chunk) : Bool :=
  chunk.kind.isNone && chunk.first == '#'

/-- The chunk is a blank or a comment. -/
def isSpacing (chunk : Chunk) : Bool :=
  chunk.kind.isNone && chunk.first != '#'

def directives (offset : Nat) : List Chunk → List Span
  | [] => []
  | chunk :: chunks =>
      let stop := offset + Text.byteLength chunk.text
      (if chunk.isDirective then [Span.between offset stop] else []) ++ directives stop chunks

theorem directives_append (offset : Nat) (left right : List Chunk) :
    directives offset (left ++ right) =
      directives offset left ++ directives (offset + Text.byteLength (flatten left)) right := by
  induction left generalizing offset with
  | nil => simp [directives]
  | cons chunk left ih => simp [directives, ih, Nat.add_assoc]

theorem directivesFrom_of_reads {chunks : List Chunk} (reads : Reads fresh [] chunks) (offset : Nat) :
    directivesFrom offset fresh (flatten chunks) = directives offset chunks := by
  induction chunks generalizing fresh offset with
  | nil => simp [directivesFrom, directives]
  | cons chunk chunks ih =>
      obtain ⟨stands, reads⟩ := reads
      obtain ⟨kind, c, rest⟩ := chunk
      rw [List.append_nil] at stands
      have whole : flatten (⟨kind, c, rest⟩ :: chunks) = c :: (rest ++ flatten chunks) := rfl
      cases kind with
      | none =>
          have piece : Piece.first fresh c (rest ++ flatten chunks) = .gap rest.length := stands
          have later := ih reads (offset + Text.byteLength (c :: rest))
          simp only [freshBehind, Option.isNone_none, Bool.true_and] at later
          rw [whole, directivesFrom, piece]
          simp only [List.take_left, List.drop_left, Nat.add_assoc, ← Text.byteLength_cons]
          rw [later, directives]
          by_cases hash : c = '#' <;> simp [isDirective, hash, text]
      | some kind =>
          have piece : Piece.first fresh c (rest ++ flatten chunks) = .token kind rest.length := stands
          have later := ih reads (offset + Text.byteLength (c :: rest))
          simp only [freshBehind, Option.isNone_some, Bool.false_and] at later
          rw [whole, directivesFrom, piece]
          simp only [List.take_left, List.drop_left]
          rw [later, directives]
          simp [isDirective, text]

theorem directives_of_reads {text : String} {chunks : List Chunk} (parts : flatten chunks = text.toList)
    (reads : Reads true [] chunks) : Requalify.directives text = directives 0 chunks := by
  rw [Requalify.directives, ← parts, directivesFrom_of_reads reads]

theorem directives_of_spacing {chunks : List Chunk} (spacing : ∀ chunk ∈ chunks, chunk.isSpacing = true)
    (offset : Nat) : directives offset chunks = [] := by
  induction chunks generalizing offset with
  | nil => rfl
  | cons chunk chunks ih =>
      obtain ⟨isSpacing, spacing⟩ := List.forall_mem_cons.mp spacing
      simp only [Chunk.isSpacing, Bool.and_eq_true, bne_iff_ne] at isSpacing
      simp [directives, isDirective, isSpacing.2, ih spacing]

theorem head_mem_directives {chunk : Chunk} (hash : chunk.isDirective = true) (offset : Nat)
    (chunks : List Chunk) :
    Span.between offset (offset + Text.byteLength chunk.text) ∈ directives offset (chunk :: chunks) := by
  rw [directives, hash, if_pos rfl]
  exact List.mem_cons_self

theorem mem_directives {offset : Nat} {chunks : List Chunk} {line : Span}
    (member : line ∈ directives offset chunks) :
    offset ≤ line.start ∧ line.start < offset + Text.byteLength (flatten chunks) := by
  induction chunks generalizing offset with
  | nil => simp [directives] at member
  | cons chunk chunks ih =>
      have positive := byteLength_text_pos chunk
      rw [flatten_cons, Text.byteLength_append]
      rcases List.mem_append.mp member with here | later
      · obtain ⟨-, rfl⟩ : chunk.isDirective = true ∧ line = Span.between offset _ := by
          simpa [apply_ite] using here
        simp only [Span.between]
        omega
      · have bounds := ih later
        omega

/-- Blanks and comments come first, and then a token or a preprocessor line. -/
theorem exists_ahead (chunks : List Chunk) :
    ∃ gaps rest, chunks = gaps ++ rest ∧ (∀ gap ∈ gaps, gap.isSpacing = true) ∧
      ∀ chunk ∈ rest.head?, chunk.isSpacing = false := by
  refine ⟨chunks.takeWhile (·.isSpacing), chunks.dropWhile (·.isSpacing),
    List.takeWhile_append_dropWhile.symm, fun gap member => List.mem_takeWhile_imp member, ?_⟩
  intro chunk isHead
  have notSpacing := List.head?_dropWhile_not (fun chunk : Chunk => chunk.isSpacing) chunks
  rw [Option.mem_def.mp isHead] at notSpacing
  exact Bool.eq_false_iff.mpr (by simpa using notSpacing)

theorem isSpacing_kind {chunk : Chunk} (spacing : chunk.isSpacing = true) : chunk.kind = none := by
  simp only [isSpacing, Bool.and_eq_true] at spacing
  exact Option.isNone_iff_eq_none.mp spacing.1

end Chunk

end Requalify
