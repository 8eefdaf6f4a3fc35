import Requalify.Patch.Splice
import Requalify.Proofs.Patch.Compatible
import Requalify.Proofs.Text.Character

/-!
Compatible patches whose ends fall between characters can all be applied. From the last to the first,
each of them ends inside what the ones before have left untouched.
-/

namespace Requalify

namespace Patch

/-- Both ends of the patch fall between characters of the text. -/
structure Fits (text : List Char) (patch : Patch) : Prop where
  start : Text.isBoundary text patch.offset = true
  stop : Text.isBoundary text (patch.offset + patch.length) = true

theorem descending_pairwise {patches : List Patch} (compatible : patches.Pairwise Compatible) :
    (descending patches).Pairwise fun later earlier => earlier.span.stop ≤ later.offset := by
  let comesFirst : Patch → Patch → Bool := fun left right => right.offset ≤ left.offset
  have transitive : ∀ first second third, comesFirst first second → comesFirst second third →
      comesFirst first third := by
    intro first second third left right
    exact decide_eq_true (Nat.le_trans (of_decide_eq_true right) (of_decide_eq_true left))
  have total : ∀ left right, comesFirst left right || comesFirst right left := by
    intro left right
    simpa [comesFirst] using Nat.le_total right.offset left.offset
  have sorted : (descending patches).Pairwise fun later earlier => comesFirst later earlier :=
    List.pairwise_mergeSort transitive total patches
  have apart : (descending patches).Pairwise Compatible :=
    (List.mergeSort_perm _ _).symm.pairwise compatible Compatible.symm
  refine (sorted.and apart).imp ?_
  rintro later earlier ⟨ordered, different, disjoint⟩
  have below : earlier.offset ≤ later.offset := of_decide_eq_true ordered
  simp only [Span.Overlaps, span] at disjoint ⊢
  omega

/-- Patches in order of offset are applied from the last to the first. -/
theorem descending_of_ascending {patches : List Patch}
    (ascending : patches.Pairwise fun left right => left.offset < right.offset) :
    descending patches = patches.reverse := by
  have backward : patches.reverse.Pairwise fun left right => right.offset ≤ left.offset :=
    List.pairwise_reverse.mpr (ascending.imp Nat.le_of_lt)
  have sorted : (descending patches).Pairwise fun left right => right.offset ≤ left.offset := by
    have whole : (descending patches).Pairwise fun left right =>
        decide (right.offset ≤ left.offset) = true :=
      List.pairwise_mergeSort (by grind) (by grind) patches
    exact whole.imp of_decide_eq_true
  refine List.Perm.eq_of_pairwise (fun left right inLeft inRight one other => ?_) sorted backward
    ((List.mergeSort_perm _ _).trans patches.reverse_perm.symm)
  by_contra different
  have distinct : patches.Pairwise fun left right => left.offset ≠ right.offset :=
    ascending.imp Nat.ne_of_lt
  have : Std.Symm fun left right : Patch => left.offset ≠ right.offset := ⟨fun _ _ => Ne.symm⟩
  exact distinct.forall (List.mem_mergeSort.mp inLeft) (List.mem_reverse.mp inRight) different
    (Nat.le_antisymm other one)

theorem spliceFrom_succeeds {text head back : List Char} {patches : List Patch}
    (limit : Option Nat) (tail : List Char) (parts : text = head ++ back)
    (bound : ∀ offset, limit = some offset → Text.byteLength head = offset)
    (fits : ∀ patch ∈ patches, patch.Fits text)
    (inside : ∀ patch ∈ patches, patch.span.stop ≤ Text.byteLength head)
    (descending : patches.Pairwise fun later earlier => earlier.span.stop ≤ later.offset) :
    ∃ rewritten, spliceFrom text limit head tail patches = .ok rewritten := by
  -- The patches run from last to first: `head` is what none of them has touched, and the ends of all
  -- that are left lie in it.
  induction patches generalizing head back limit tail with
  | nil => exact ⟨_, rfl⟩
  | cons patch rest ih =>
      obtain ⟨fitsFirst, fitsRest⟩ := List.forall_mem_cons.mp fits
      obtain ⟨insideFirst, -⟩ := List.forall_mem_cons.mp inside
      obtain ⟨below, descendingRest⟩ := List.pairwise_cons.mp descending
      have sound : patch.defect? text limit = none := by
        have size : ¬Text.byteLength text < patch.span.stop := by
          rw [parts, Text.byteLength_append]
          omega
        have free : limit.any (· < patch.span.stop) = false := by
          cases limit with
          | none => rfl
          | some offset =>
              have same := bound offset rfl
              simp only [Option.any_some, decide_eq_false_iff_not]
              omega
        simp only [defect?, if_neg size, free]
        simp only [span, fitsFirst.start, fitsFirst.stop]
        rfl
      have stopInside := Text.isBoundary_of_append (parts ▸ fitsFirst.stop) insideFirst
      have startInside := Text.isBoundary_of_append (parts ▸ fitsFirst.start)
        (Nat.le_trans (Nat.le_add_right _ _) insideFirst)
      obtain ⟨before, removed, after, rfl, start, stop⟩ :=
        Text.parts_of_boundaries startInside stopInside (Nat.le_add_right _ _)
      have atStart : Text.splitAt? (before ++ (removed ++ after)) patch.span.start =
          some (before, removed ++ after) := Text.splitAt?_eq_some_iff.mpr ⟨rfl, start⟩
      have size : Text.byteLength removed = patch.length := by
        have whole : patch.span.stop = patch.offset + patch.length := rfl
        omega
      have atStop : Text.splitAt? (removed ++ after) patch.length = some (removed, after) :=
        Text.splitAt?_eq_some_iff.mpr ⟨rfl, size⟩
      simp only [spliceFrom, sound, atStart, atStop]
      have rest : text = before ++ (removed ++ after ++ back) := by simp [parts]
      apply ih _ _ rest
      · rintro offset ⟨⟩
        exact start
      · exact fitsRest
      · exact fun earlier member => start ▸ below earlier member
      · exact descendingRest

/-- Patches that are compatible and cut no character of the text can be applied to it. -/
theorem splice_succeeds {text : String} {patches : List Patch}
    (compatible : patches.Pairwise Compatible) (fits : ∀ patch ∈ patches, patch.Fits text.toList) :
    ∃ rewritten, splice text patches = .ok rewritten := by
  have fits' : ∀ patch ∈ descending patches, patch.Fits text.toList := fun patch member =>
    fits patch (List.mem_mergeSort.mp member)
  obtain ⟨rewritten, result⟩ := spliceFrom_succeeds none [] (List.append_nil text.toList).symm
    (by simp) fits'
    (fun patch member => Text.isBoundary_le (fits' patch member).stop)
    (descending_pairwise compatible)
  exact ⟨String.ofList rewritten, by rw [splice, spliceChars, result]; rfl⟩

end Patch

end Requalify
