import Requalify.Proofs.Diff.Hunks
import Requalify.Proofs.Diff.Ties

/-!
A diff against the text that applying the same patches gives. What is read from the diff are hunks whose old
sides stand in the text at the lines they name. With the new sides in their place the text is the rewritten one
if no two patches begin at one offset, and otherwise if and only if the diff shows at each offset what is
applied there.
-/

namespace Requalify.LineDiff

open Patch (atOffset woven)
open Text (byteLength)

/-- The diff; nothing if its hunks cannot be computed. -/
def render? (path text : String) (patches : List Patch) : Option String :=
  if patches.isEmpty then some ""
  else (hunks? text patches).map fun hunks =>
    s!"--- a/{path}\n+++ b/{path}\n" ++ String.ofList (hunks.flatMap Hunk.render)

theorem render_of_render? {path text diff : String} {patches : List Patch}
    (result : render? path text patches = some diff) : render path text patches = diff := by
  rw [render?] at result
  rw [render]
  split at result
  next empty =>
    rw [if_pos empty]
    exact Option.some.inj result
  next filled =>
    obtain ⟨hunks, isHunks, rfl⟩ := Option.map_eq_some_iff.mp result
    rw [if_neg filled, LineDiff.hunks, hunksFrom_of_hunksFrom? isHunks]

/-! The numbers of the hunks ascend. -/

/-- How many lines stand in front of those that the hunk names. -/
def Hunk.passed (hunk : Hunk) (side : Side) : Nat :=
  if hunk.count side = 0 then hunk.start side else hunk.start side - 1

theorem Names.passed {text front : List Char} {hunk : Hunk} {side : Side}
    (names : Names text front (hunk.text side) (hunk.start side) (hunk.count side)) :
    hunk.passed side = lineCount front := by
  have start := names.isStart
  rw [length_lines] at start
  rw [Hunk.passed]
  split
  next empty => rwa [if_pos empty] at start
  next filled =>
    rw [if_neg filled] at start
    omega

theorem Names.lineCount_append {text front part : List Char} {start count : Nat}
    (names : Names text front part start count) :
    lineCount (front ++ part) = lineCount front + count := by
  obtain ⟨back, rfl, split⟩ := names.whole
  have total := congrArg List.length split
  rw [names.isCount]
  simp only [List.length_append, length_lines] at total ⊢
  by_cases closed : endsOpen front = false
  · exact LineDiff.lineCount_append closed part
  · by_cases empty : part = []
    · simp [empty, lineCount]
    · -- An open line and what follows it have one line more apart than together.
      have filled : part ++ back ≠ [] := by simp [empty]
      have apart := lineCount_append_of_open (eq_true_of_ne_false closed) filled
      have parts := lineCount_append_le part back
      rw [List.append_assoc] at total
      omega

theorem Named.le_passed {side : Side} {text front : List Char} {stretches : List Stretch}
    (named : Named side text front stretches) :
    ∀ stretch ∈ stretches, lineCount front ≤ stretch.hunk.passed side := by
  induction stretches generalizing front with
  | nil => simp
  | cons stretch rest ih =>
      obtain ⟨here, later⟩ := named
      have upTo := lineCount_le front stretch.kept
      refine List.forall_mem_cons.mpr ⟨?_, fun next member => ?_⟩
      · rw [here.passed]
        exact upTo
      · have beyond := ih later next member
        rw [here.lineCount_append] at beyond
        omega

theorem Named.ascending {side : Side} {text front : List Char} {stretches : List Stretch}
    (named : Named side text front stretches) :
    (stretches.map (·.hunk)).Pairwise fun earlier later =>
      earlier.passed side + earlier.count side ≤ later.passed side := by
  induction stretches generalizing front with
  | nil => exact .nil
  | cons stretch rest ih =>
      obtain ⟨here, later⟩ := named
      refine List.pairwise_cons.mpr ⟨fun hunk member => ?_, ih later⟩
      obtain ⟨next, isNext, rfl⟩ := List.mem_map.mp member
      have beyond := later.le_passed next isNext
      rwa [here.lineCount_append, ← here.passed] at beyond

/-! All hunks of a text. -/

def stretches (text : String) (patches : List Patch) : List Stretch :=
  stretchesFrom text.toList 0 0 (blocks (Text.bytes text) patches)

/-- The lines that stay behind the last hunk. -/
def tail (text : String) (patches : List Patch) : List Char :=
  tailFrom text.toList 0 (blocks (Text.bytes text) patches)

theorem hunks_eq (text : String) (patches : List Patch) :
    hunks text patches = (stretches text patches).map (·.hunk) :=
  hunksFrom_eq text.toList 0 0 (blocks (Text.bytes text) patches)

section Descends

variable {text : String} {patches : List Patch}
  (descends : Patch.Descends text.toList (Patch.descending patches))

include descends

theorem divides : Divides text.toList (Patch.ascending patches) (blocks (Text.bytes text) patches) := by
  rw [Text.bytes_eq]
  exact blocks_divide descends.fits_all

theorem stretches_old :
    text.toList = assembled .old (stretches text patches) ++ tail text patches ∧
      Named .old text.toList [] (stretches text patches) ∧
      MarkedAtEnd .old (tail text patches) (stretches text patches) := by
  obtain ⟨sound, apart, -⟩ := divides descends
  have parts : text.toList = [] ++ text.toList := rfl
  exact named_old (cuts_of_sound parts sound apart fun block _ => Nat.zero_le _) 0

theorem stretches_new :
    hunks? text patches = (preview? text.toList 0 (Patch.ascending patches)).map
        (fun _ => (stretches text patches).map (·.hunk)) ∧
      ∀ shown, preview? text.toList 0 (Patch.ascending patches) = some shown →
        shown = assembled .new (stretches text patches) ++ tail text patches := by
  obtain ⟨sound, apart, whole⟩ := divides descends
  have follows := descends.follows
  rw [← whole] at follows
  have parts : text.toList = [] ++ text.toList := rfl
  have bounded : (0 : Int) ≤ 0 + lineCount [] := by decide
  have all := hunksFrom?_eq (cuts_of_sound parts sound apart fun block _ => Nat.zero_le _) bounded follows
  rw [whole, Text.byteLength_nil] at all
  rw [← hunks_eq]
  exact all

omit descends in
/-- A diff that can be computed shows the hunks of the text. -/
theorem read_render? {path diff : String} (some_ : patches ≠ [])
    (result : render? path text patches = some diff) :
    read path diff = some ((stretches text patches).map (·.hunk)) := by
  rw [← render_of_render? result, read_render some_, hunks_eq]

theorem render?_eq_none_iff {path : String} (some_ : patches ≠ []) :
    render? path text patches = none ↔ preview? text.toList 0 (Patch.ascending patches) = none := by
  have filled : ¬patches.isEmpty = true := by rwa [List.isEmpty_iff]
  rw [render?, if_neg filled, Option.map_eq_none_iff, (stretches_new descends).1, Option.map_eq_none_iff]

end Descends

/-- The diff of patches at ascending offsets can be computed. Read back, it is hunks whose old lines are lines
of the text, named by their numbers, one range behind the other. The text with the new lines in their place is
the text that applying the patches gives. -/
theorem diff_exact (path : String) {text rewritten : String} {patches : List Patch} (some_ : patches ≠ [])
    (ascend : patches.Pairwise fun first second => first.offset < second.offset)
    (accepted : Patch.splice text patches = .ok rewritten) :
    ∃ diff stretches tail,
      render? path text patches = some diff ∧ render path text patches = diff ∧
      read path diff = some (stretches.map (·.hunk)) ∧
      text.toList = assembled .old stretches ++ tail ∧
      Named .old text.toList [] stretches ∧
      ((stretches.map (·.hunk)).Pairwise fun earlier later =>
        earlier.passed .old + earlier.oldCount ≤ later.passed .old) ∧
      rewritten.toList = assembled .new stretches ++ tail := by
  obtain ⟨descends, rfl⟩ := Patch.splice_eq_ok_iff.mp accepted
  have shown : preview? text.toList 0 (Patch.ascending patches) =
      some (woven text.toList 0 (Patch.descending patches).reverse) := by
    rw [Patch.ascending_of_ascend ascend, Patch.descending_of_ascend ascend]
    have parts : text.toList = [] ++ text.toList := rfl
    exact preview?_woven parts descends.fits_all (descends.apart_of_ascend ascend)
      fun patch _ => Nat.zero_le _
  cases result : render? path text patches with
  | none =>
      rw [render?_eq_none_iff descends some_, shown] at result
      simp at result
  | some diff =>
      obtain ⟨old, named, -⟩ := stretches_old descends
      refine ⟨diff, stretches text patches, tail text patches, rfl, render_of_render? result, ?_, old, named,
        named.ascending, ?_⟩
      · exact read_render? some_ result
      · rw [String.toList_ofList]
        exact (stretches_new descends).2 _ shown

/-- A line that goes, and a last line without a terminator. -/
theorem diff_exact_removed_line :
    let text := "a\nb\nc"
    let patches : List Patch := [⟨0, 2, "", ""⟩, ⟨5, 0, "d", ""⟩]
    let diff := "--- a/a.cpp\n+++ b/a.cpp\n@@ -1,1 +0,0 @@\n-a\n@@ -3,1 +2,1 @@\n" ++
      "-c\n\\ No newline at end of file\n+cd\n\\ No newline at end of file\n"
    Patch.splice text patches = .ok "b\ncd" ∧
      ∃ stretches tail,
        render? "a.cpp" text patches = some diff ∧ read "a.cpp" diff = some (stretches.map (·.hunk)) ∧
        text.toList = assembled .old stretches ++ tail ∧ Named .old text.toList [] stretches ∧
        "b\ncd".toList = assembled .new stretches ++ tail := by
  intro text patches diff
  have accepted : Patch.splice text patches = .ok "b\ncd" := by
    rw [Patch.splice, Patch.spliceChars, Patch.descending_of_ascending (by simp [patches])]
    decide +kernel
  have shown : render "a.cpp" text patches = diff := by
    rw [render, hunks, blocks, List.mergeSort_of_pairwise (by simp [patches]), Text.bytes_eq]
    decide +kernel
  obtain ⟨_, stretches, tail, computed, rendered, isRead, old, named, -, new⟩ :=
    diff_exact "a.cpp" (by simp [patches]) (by simp [patches]) accepted
  obtain rfl := rendered.symm.trans shown
  exact ⟨accepted, stretches, tail, computed, isRead, old, named, new⟩

theorem shownAt?_inserted (text : List Char) {group : List Patch}
    (nothing : ∀ patch ∈ group, patch.length = 0) : shownAt? text group = some (texts group) := by
  cases group with
  | nil => rfl
  | cons patch inserted =>
      have empty := nothing patch List.mem_cons_self
      have stop : patch.span.stop = patch.offset := by
        have span : patch.span.stop = patch.offset + patch.length := rfl
        omega
      rw [shownAt?, stop, Text.between_self, empty, Text.splitAt?_zero, List.append_nil]
      rfl

/-- The diff of patches that share offsets. It can be computed unless a patch would have to replace a part of a
character that another one inserts at its offset. With the new lines in place of the old ones the text is the
rewritten one if and only if at each offset the diff shows what is applied there; what is inserted at one
offset is shown in the order of the list and applied in reverse order. -/
theorem diff_of_ties (path : String) {text rewritten : String} {patches : List Patch} (some_ : patches ≠ [])
    (accepted : Patch.splice text patches = .ok rewritten) :
    (render? path text patches = none ↔
      ∃ offset, shownAt? text.toList (atOffset patches offset) = none) ∧
    (∀ diff, render? path text patches = some diff →
      render path text patches = diff ∧
      ∃ stretches tail,
        read path diff = some (stretches.map (·.hunk)) ∧
        text.toList = assembled .old stretches ++ tail ∧
        (rewritten.toList = assembled .new stretches ++ tail ↔
          ∀ offset, shownAt? text.toList (atOffset patches offset) =
            some (texts (atOffset patches offset).reverse))) ∧
    ∀ offset, (∀ patch ∈ atOffset patches offset, patch.length = 0) →
      shownAt? text.toList (atOffset patches offset) = some (texts (atOffset patches offset)) := by
  obtain ⟨descends, rfl⟩ := Patch.splice_eq_ok_iff.mp accepted
  obtain ⟨noneIff, sameIff⟩ := preview?_spec descends
  refine ⟨?_, fun diff result => ⟨render_of_render? result, ?_⟩, fun offset => shownAt?_inserted text.toList⟩
  · rw [render?_eq_none_iff descends some_]
    exact noneIff
  · cases shown : preview? text.toList 0 (Patch.ascending patches) with
    | none =>
        rw [(render?_eq_none_iff descends some_).mpr shown] at result
        simp at result
    | some chars =>
        refine ⟨stretches text patches, tail text patches, read_render? some_ result,
          (stretches_old descends).1, ?_⟩
        rw [← (stretches_new descends).2 chars shown, String.toList_ofList, eq_comm]
        exact sameIff chars shown

/-- Two insertions are shown in the order of the list and applied in the other one. -/
theorem diff_of_ties_two_insertions :
    let text := "a\nb\n"
    let patches : List Patch := [⟨2, 0, "X", ""⟩, ⟨2, 0, "Y", ""⟩]
    Patch.splice text patches = .ok "a\nYXb\n" ∧
      ∀ diff, render? "a.cpp" text patches = some diff →
        ∃ stretches tail, read "a.cpp" diff = some (stretches.map (·.hunk)) ∧
          text.toList = assembled .old stretches ++ tail ∧
          ¬"a\nYXb\n".toList = assembled .new stretches ++ tail := by
  intro text patches
  have accepted : Patch.splice text patches = .ok "a\nYXb\n" := by
    rw [Patch.splice, Patch.spliceChars, Patch.descending, List.mergeSort_of_pairwise (by simp [patches])]
    decide +kernel
  obtain ⟨-, shown, inserted⟩ := diff_of_ties "a.cpp" (by simp [patches]) accepted
  refine ⟨accepted, fun diff result => ?_⟩
  obtain ⟨-, stretches, tail, isRead, old, same⟩ := shown diff result
  refine ⟨stretches, tail, isRead, old, fun new => ?_⟩
  have swapped := (same.mp new 2).symm.trans (inserted 2 (by decide))
  exact absurd swapped (by decide)

/-- Texts inserted at one offset, and a text inserted where another patch replaces a byte: the order in the
diff is not the one in the result, and a character is cut. -/
theorem ties_apart :
    let text := "a\nb\n"
    let inserted : List Patch := [⟨2, 0, "X", ""⟩, ⟨2, 0, "Y", ""⟩]
    let replaced : List Patch := [⟨2, 1, "Z", ""⟩, ⟨2, 0, "é", ""⟩]
    (Patch.splice text inserted = .ok "a\nYXb\n" ∧
      render "a.cpp" text inserted = "--- a/a.cpp\n+++ b/a.cpp\n@@ -2,1 +2,1 @@\n-b\n+XYb\n") ∧
    Patch.splice text replaced = .ok "a\néZ\n" ∧ render? "a.cpp" text replaced = none := by
  intro text inserted replaced
  refine ⟨⟨?_, ?_⟩, ?_, ?_⟩
  · rw [Patch.splice, Patch.spliceChars, Patch.descending, List.mergeSort_of_pairwise (by simp [inserted])]
    decide +kernel
  · rw [render, hunks, blocks, List.mergeSort_of_pairwise (by simp [inserted]), Text.bytes_eq]
    decide +kernel
  · rw [Patch.splice, Patch.spliceChars, Patch.descending, List.mergeSort_of_pairwise (by simp [replaced])]
    decide +kernel
  · rw [render?, hunks?, blocks, List.mergeSort_of_pairwise (by simp [replaced]), Text.bytes_eq]
    decide +kernel

end Requalify.LineDiff
