import Requalify.Proofs.Text.Character
import Requalify.WrittenQualifier

/-!
The places that a written qualifier gives for edits. The pieces between separators make up the whole
qualifier, so each place lies in its span and cuts no character.
-/

namespace Requalify

theorem Span.between_stop_eq (start stop : Nat) :
    (between start stop).stop = start ∨ (between start stop).stop = stop := by
  simp only [between]
  omega

namespace NamespacePath

theorem pieces_ne_nil (text : List Char) : pieces text ≠ [] := by
  fun_cases pieces text with
  | case1 => simp
  | case2 rest => simp
  | case3 c rest _ _ => simp
  | case4 c rest _ piece more _ => simp

theorem intercalate_pieces (text : List Char) : [':', ':'].intercalate (pieces text) = text := by
  fun_induction pieces text with
  | case1 => rfl
  | case2 rest ih =>
      rw [List.intercalate_cons_of_ne_nil (pieces_ne_nil rest), ih]
      rfl
  | case3 c rest _ nothing ih => exact absurd nothing (pieces_ne_nil rest)
  | case4 c rest _ piece more parts ih =>
      rw [parts] at ih
      rw [List.intercalate_cons_cons_left, ih]

end NamespacePath

/-- The offset lies in the span, or at one of its ends, and cuts no character. -/
structure Text.Cuts (text : List Char) (span : Span) (offset : Nat) : Prop where
  start_le : span.start ≤ offset
  le_stop : offset ≤ span.stop
  boundary : Text.isBoundary text offset = true

namespace WrittenQualifier

open Text

theorem trimStart_boundary (passed piece behind : List Char) :
    isBoundary (passed ++ (piece ++ behind))
      (byteLength passed + (byteLength piece - byteLength (trimStart piece))) = true := by
  have parts : piece.takeWhile isBlank ++ trimStart piece = piece :=
    List.takeWhile_append_dropWhile
  have place : byteLength passed + (byteLength piece - byteLength (trimStart piece)) =
      byteLength (passed ++ piece.takeWhile isBlank) := by
    have size := congrArg byteLength parts
    rw [byteLength_append] at size
    rw [byteLength_append]
    omega
  have whole : passed ++ (piece ++ behind) =
      (passed ++ piece.takeWhile isBlank) ++ (trimStart piece ++ behind) := by
    rw [List.append_assoc, ← List.append_assoc (piece.takeWhile isBlank), parts]
  rw [place, whole]
  exact isBoundary_length _ _

theorem namesFrom_boundary (passed : List Char) (pieces : List (List Char)) :
    ∀ name ∈ namesFrom (byteLength passed) pieces,
      isBoundary (passed ++ [':', ':'].intercalate pieces) name.start = true ∧
        isBoundary (passed ++ [':', ':'].intercalate pieces) name.stop = true := by
  induction pieces generalizing passed with
  | nil => simp [namesFrom]
  | cons piece rest ih =>
      cases rest with
      | nil =>
          intro name member
          simp only [namesFrom, List.isEmpty_nil, if_true] at member
          split at member
          next => simp at member
          next =>
            obtain rfl := List.mem_singleton.mp member
            rw [List.intercalate_singleton]
            refine ⟨by simpa using trimStart_boundary passed piece [], ?_⟩
            simpa using isBoundary_length (passed ++ piece) []
      | cons second rest =>
          have whole : passed ++ [':', ':'].intercalate (piece :: second :: rest) =
              (passed ++ piece ++ [':', ':']) ++ [':', ':'].intercalate (second :: rest) := by
            simp
          have behind : byteLength passed + byteLength piece + 2 =
              byteLength (passed ++ piece ++ [':', ':']) := by
            simp only [byteLength_append]
            rfl
          have later := ih (passed ++ piece ++ [':', ':'])
          rw [← whole, ← behind] at later
          intro name member
          rw [namesFrom] at member
          split at member
          next => exact later name member
          next =>
            rcases List.mem_cons.mp member with rfl | inRest
            · refine ⟨?_, ?_⟩
              · rw [List.intercalate_cons_cons, List.append_assoc]
                exact trimStart_boundary passed piece _
              · rw [whole]
                simp only [List.isEmpty_cons, Bool.false_eq_true, if_false, behind]
                exact isBoundary_length _ _
            · exact later name inRest

theorem cuts_of_boundary {before middle after : List Char} {span : Span} {offset : Nat}
    (start : byteLength before = span.start)
    (stop : byteLength before + byteLength middle = span.stop)
    (boundary : isBoundary middle offset = true) :
    Cuts (before ++ (middle ++ after)) span (span.start + offset) := by
  have inside := isBoundary_le boundary
  obtain ⟨left, right, rfl, rfl⟩ := isBoundary_iff.mp boundary
  refine ⟨by omega, by omega, ?_⟩
  rw [← start, ← byteLength_append]
  have whole : before ++ (left ++ right ++ after) = before ++ left ++ (right ++ after) := by simp
  rw [whole]
  exact isBoundary_length _ _

section Places

variable {text : String} {span : Span} (start : isBoundary text.toList span.start = true)
  (stop : isBoundary text.toList span.stop = true)

include start stop

theorem read_parts : ∃ before middle after, text.toList = before ++ (middle ++ after) ∧
    byteLength before = span.start ∧ byteLength before + byteLength middle = span.stop ∧
    read text span = readText middle span := by
  obtain ⟨before, middle, after, parts, startEq, stopEq⟩ :=
    parts_of_boundaries start stop span.start_le_stop
  refine ⟨before, middle, after, parts, startEq, stopEq, ?_⟩
  rw [read, parts, slice?_of_parts after startEq stopEq]
  rfl

theorem insertionPoint_cuts : Cuts text.toList span (read text span).insertionPoint := by
  obtain ⟨before, middle, after, parts, startEq, stopEq, written⟩ := read_parts start stop
  have leading : isBoundary middle ((readText middle span).leading.getD 0) = true := by
    have pieces := NamespacePath.intercalate_pieces middle
    simp only [readText]
    split
    next first second rest found =>
      rw [found, List.intercalate_cons_cons] at pieces
      split
      next =>
        have behind : byteLength first + 2 = byteLength (first ++ [':', ':']) := by
          rw [byteLength_append]
          rfl
        rw [← pieces, Option.getD_some, behind]
        exact isBoundary_length _ _
      next => exact isBoundary_length [] middle
    next => exact isBoundary_length [] middle
  rw [parts, written]
  exact cuts_of_boundary startEq stopEq leading

theorem leadingSpan_cuts (count : Nat) :
    Cuts text.toList span ((read text span).leadingSpan count).start ∧
      Cuts text.toList span ((read text span).leadingSpan count).stop := by
  obtain ⟨before, middle, after, parts, startEq, stopEq, written⟩ := read_parts start stop
  have insertion := insertionPoint_cuts start stop
  have named : ∀ name ∈ (read text span).names,
      Cuts text.toList span (span.start + name.start) ∧
        Cuts text.toList span (span.start + name.stop) := by
    intro name member
    rw [written] at member
    have inside := namesFrom_boundary [] (NamespacePath.pieces middle) name member
    rw [List.nil_append, NamespacePath.intercalate_pieces] at inside
    rw [parts]
    exact ⟨cuts_of_boundary startEq stopEq inside.1, cuts_of_boundary startEq stopEq inside.2⟩
  have place : (read text span).span = span := by rw [written]; rfl
  unfold leadingSpan
  dsimp only
  split
  next first last isFirst isLast =>
    have firstCuts := (named first (List.mem_of_mem_take (List.mem_of_head? isFirst))).1
    have lastCuts := (named last (List.mem_of_mem_take (List.mem_of_getLast? isLast))).2
    rw [place]
    refine ⟨firstCuts, ?_⟩
    rcases Span.between_stop_eq (span.start + first.start) (span.start + last.stop) with
      same | same
    · rw [same]
      exact firstCuts
    · rw [same]
      exact lastCuts
  next => exact ⟨insertion, insertion⟩

end Places

end WrittenQualifier

end Requalify
