import Mathlib.Data.List.Pairwise
import Requalify.Patch.Store

/-!
Which patches of one file can stand together. Two patches are compatible if their offsets differ and
their spans do not overlap; in order of offset this says that each patch ends before the next begins.
`PatchSet.add` compares a patch with its two nearest neighbours only. On an ordered set that is the same
as comparing it with every patch, which `PatchSet.neighbour_overlaps_iff` states.
-/

namespace Requalify

namespace Patch

def Compatible (left right : Patch) : Prop :=
  left.offset ≠ right.offset ∧ ¬left.span.Overlaps right.span

/-- `left` stands in front of `right` and ends before it. -/
def Precedes (left right : Patch) : Prop :=
  left.offset < right.offset ∧ left.span.stop ≤ right.offset

theorem Compatible.symm {left right : Patch} (compatible : left.Compatible right) :
    right.Compatible left :=
  ⟨compatible.1.symm, fun overlap => compatible.2 overlap.symm⟩

instance : Std.Symm Compatible :=
  ⟨fun _ _ => Compatible.symm⟩

theorem precedes_iff {left right : Patch} :
    left.Precedes right ↔ left.offset < right.offset ∧ left.Compatible right := by
  simp only [Precedes, Compatible, Span.Overlaps, span]
  omega

theorem Precedes.compatible {left right : Patch} (precedes : left.Precedes right) :
    left.Compatible right :=
  (precedes_iff.mp precedes).2

theorem eq_of_offset_eq {patches : List Patch} (ordered : patches.Pairwise Precedes)
    {left right : Patch} (leftMember : left ∈ patches) (rightMember : right ∈ patches)
    (same : left.offset = right.offset) : left = right := by
  by_contra different
  have compatible : left.Compatible right :=
    (ordered.imp Precedes.compatible).forall leftMember rightMember different
  exact compatible.1 same

end Patch

namespace PatchSet

/-- The patches stand in order, and each ends before the next begins. -/
def Ordered (set : PatchSet) : Prop :=
  set.patches.Pairwise Patch.Precedes

theorem mem_before {set : PatchSet} {offset : Nat} {patch : Patch} :
    patch ∈ set.before offset ↔ patch ∈ set.patches ∧ patch.offset < offset := by
  simp [before]

theorem mem_after {set : PatchSet} {offset : Nat} {patch : Patch} :
    patch ∈ set.after offset ↔ patch ∈ set.patches ∧ offset < patch.offset := by
  simp [after]

theorem mem_of_mem_neighbours {set : PatchSet} {offset : Nat} {patch : Patch}
    (member : patch ∈ set.neighbours offset) : patch ∈ set.patches := by
  simp only [neighbours, List.mem_append, Option.mem_toList] at member
  rcases member with last | first
  · exact (mem_before.mp (List.mem_of_getLast? last)).1
  · exact (mem_after.mp (List.mem_of_head? first)).1

theorem last_of_pairwise {relation : Patch → Patch → Prop} {patches : List Patch} {last patch : Patch}
    (pairwise : patches.Pairwise relation) (isLast : patches.getLast? = some last)
    (member : patch ∈ patches) : patch = last ∨ relation patch last := by
  obtain ⟨front, rfl⟩ := List.getLast?_eq_some_iff.mp isLast
  rw [List.pairwise_append] at pairwise
  rcases List.mem_append.mp member with inFront | isPatch
  · exact .inr (pairwise.2.2 patch inFront last (by simp))
  · exact .inl (by simpa using isPatch)

theorem head_of_pairwise {relation : Patch → Patch → Prop} {patches : List Patch} {first patch : Patch}
    (pairwise : patches.Pairwise relation) (isFirst : patches.head? = some first)
    (member : patch ∈ patches) : patch = first ∨ relation first patch := by
  obtain ⟨rest, rfl⟩ := List.head?_eq_some_iff.mp isFirst
  rcases List.mem_cons.mp member with same | inRest
  · exact .inl same
  · exact .inr (List.rel_of_pairwise_cons pairwise inRest)

/-- A recorded patch in front that overlaps a new one is the nearest one in front. -/
theorem Ordered.overlaps_before {set : PatchSet} (ordered : set.Ordered) {patch other : Patch}
    (member : other ∈ set.before patch.offset) (overlap : other.span.Overlaps patch.span) :
    other ∈ set.neighbours patch.offset := by
  obtain ⟨last, isLast⟩ := Option.isSome_iff_exists.mp
    (List.getLast?_isSome.mpr (List.ne_nil_of_mem member))
  have nearest := last_of_pairwise (ordered.sublist List.filter_sublist) isLast member
  have lastBelow := (mem_before.mp (List.mem_of_getLast? isLast)).2
  rcases nearest with rfl | precedes
  · exact List.mem_append_left _ (Option.mem_toList.mpr isLast)
  · have reach : patch.offset < other.span.stop := overlap.2
    have room := precedes.2
    omega

/-- If a recorded patch behind a new one overlaps it, so does the nearest one behind. -/
theorem Ordered.overlaps_after {set : PatchSet} (ordered : set.Ordered) {patch other : Patch}
    (member : other ∈ set.after patch.offset) (overlap : other.span.Overlaps patch.span) :
    ∃ near ∈ set.neighbours patch.offset, near.span.Overlaps patch.span := by
  obtain ⟨first, isFirst⟩ := Option.isSome_iff_exists.mp
    (List.isSome_head?.mpr (List.ne_nil_of_mem member))
  have nearest := head_of_pairwise (ordered.sublist List.filter_sublist) isFirst member
  have firstAbove := (mem_after.mp (List.mem_of_head? isFirst)).2
  refine ⟨first, List.mem_append_right _ (Option.mem_toList.mpr isFirst), ?_⟩
  rcases nearest with rfl | precedes
  · exact overlap
  · have reach : other.offset < patch.span.stop := overlap.1
    have front := precedes.1
    simp only [Span.Overlaps, Patch.span] at reach ⊢
    omega

/-- Looking at the two neighbours is looking at every patch. -/
theorem Ordered.neighbour_overlaps_iff {set : PatchSet} (ordered : set.Ordered) {patch : Patch}
    (free : ∀ other ∈ set.patches, other.offset ≠ patch.offset) :
    (∃ near ∈ set.neighbours patch.offset, near.span.Overlaps patch.span) ↔
      ∃ other ∈ set.patches, other.span.Overlaps patch.span := by
  constructor
  · rintro ⟨near, member, overlap⟩
    exact ⟨near, mem_of_mem_neighbours member, overlap⟩
  · rintro ⟨other, member, overlap⟩
    rcases Nat.lt_or_gt_of_ne (free other member) with below | above
    · exact ⟨other, ordered.overlaps_before (mem_before.mpr ⟨member, below⟩) overlap, overlap⟩
    · exact ordered.overlaps_after (mem_after.mpr ⟨member, above⟩) overlap

/-- The set with a patch put in its place. -/
def insert (set : PatchSet) (patch : Patch) : PatchSet :=
  { set with patches := set.before patch.offset ++ patch :: set.after patch.offset }

theorem patches_insert_perm {set : PatchSet} {patch : Patch}
    (free : ∀ other ∈ set.patches, other.offset ≠ patch.offset) :
    (set.insert patch).patches.Perm (patch :: set.patches) := by
  have rest : set.after patch.offset =
      set.patches.filter fun other => !decide (other.offset < patch.offset) := by
    apply List.filter_congr
    intro other member
    have different := free other member
    rw [← decide_not, decide_eq_decide]
    omega
  have parts : (set.before patch.offset ++ set.after patch.offset).Perm set.patches := by
    rw [rest]
    exact List.filter_append_perm _ _
  exact List.perm_middle.trans (parts.cons patch)

theorem Ordered.insert {set : PatchSet} (ordered : set.Ordered) {patch : Patch}
    (compatible : ∀ other ∈ set.patches, other.Compatible patch) : (set.insert patch).Ordered := by
  have front : ∀ other ∈ set.before patch.offset, other.Precedes patch := by
    intro other member
    obtain ⟨recorded, below⟩ := mem_before.mp member
    exact Patch.precedes_iff.mpr ⟨below, compatible other recorded⟩
  have back : ∀ other ∈ set.after patch.offset, patch.Precedes other := by
    intro other member
    obtain ⟨recorded, above⟩ := mem_after.mp member
    exact Patch.precedes_iff.mpr ⟨above, (compatible other recorded).symm⟩
  refine List.pairwise_append.mpr ⟨ordered.sublist List.filter_sublist,
    List.pairwise_cons.mpr ⟨back, ordered.sublist List.filter_sublist⟩, ?_⟩
  intro left leftMember right rightMember
  rcases List.mem_cons.mp rightMember with rfl | inBack
  · exact front left leftMember
  · have first := front left leftMember
    have second := back right inBack
    simp only [Patch.Precedes, Patch.span] at first second ⊢
    omega

theorem Ordered.add_cases {set : PatchSet} (ordered : set.Ordered) (patch : Patch) :
    (∃ existing ∈ set.patches, existing.offset = patch.offset ∧ existing.SameEdit patch ∧
      set.add patch = .ok (set, .duplicate)) ∨
    (∃ existing ∈ set.patches, existing.offset = patch.offset ∧ ¬existing.SameEdit patch ∧
      set.add patch =
        .error (.sameOffset set.relativePath patch.offset existing.text patch.text)) ∨
    (∃ existing ∈ set.patches, existing.span.Overlaps patch.span ∧
      (∀ other ∈ set.patches, other.offset ≠ patch.offset) ∧
      set.add patch = .error (.overlap set.relativePath existing.span patch.span)) ∨
    ((∀ other ∈ set.patches, other.Compatible patch) ∧
      set.add patch = .ok (set.insert patch, .inserted)) := by
  rw [add]
  split
  next existing found =>
    have member := List.mem_of_find?_eq_some found
    have same : existing.offset = patch.offset := by
      simpa using List.find?_some found
    by_cases sameEdit : existing.SameEdit patch
    · exact .inl ⟨existing, member, same, sameEdit, by rw [if_pos sameEdit]⟩
    · exact .inr (.inl ⟨existing, member, same, sameEdit, by rw [if_neg sameEdit]⟩)
  next missing =>
    have free : ∀ other ∈ set.patches, other.offset ≠ patch.offset := by
      simpa using missing
    have nearest := ordered.neighbour_overlaps_iff free
    split
    next existing found =>
      have member := mem_of_mem_neighbours (List.mem_of_find?_eq_some found)
      have overlap : existing.span.Overlaps patch.span := by
        simpa using List.find?_some found
      exact .inr (.inr (.inl ⟨existing, member, overlap, free, rfl⟩))
    next missing =>
      refine .inr (.inr (.inr ⟨?_, rfl⟩))
      intro other member
      refine ⟨free other member, fun overlap => ?_⟩
      obtain ⟨near, nearMember, nearOverlap⟩ := nearest.mpr ⟨other, member, overlap⟩
      have apart := List.find?_eq_none.mp missing near nearMember
      exact apart (by simpa using nearOverlap)

end PatchSet

end Requalify
