import Mathlib.Data.List.Dedup
import Requalify.Proofs.Diff.Preview

/-!
Patches that begin at one offset. Only the first of them in the list can replace bytes if all can be applied.
Applied, their texts stand in reverse order, the first one last. Shown in a diff, they stand in the order of
the list, and the first one replaces as many bytes of what the others have inserted. The two agree on all
patches if and only if they agree at each offset.
-/

namespace Requalify

open Text (byteLength splitAt?)

namespace Patch

/-- The patches at one offset, in the order of the list. -/
def atOffset (patches : List Patch) (offset : Nat) : List Patch :=
  patches.filter (·.offset == offset)

theorem mem_atOffset {patches : List Patch} {offset : Nat} {patch : Patch} :
    patch ∈ atOffset patches offset ↔ patch ∈ patches ∧ patch.offset = offset := by
  rw [atOffset, List.mem_filter, beq_iff_eq]

theorem ascending_stable (patches : List Patch) (offset : Nat) :
    atOffset (ascending patches) offset = atOffset patches offset := by
  refine filter_mergeSort ?_ ?_ ?_ patches
  · intro first second third left right
    exact comesFirst_trans third second first right left
  · intro left right
    exact comesFirst_total right left
  · intro left right atLeft atRight
    rw [beq_iff_eq] at atLeft atRight
    exact decide_eq_true (Nat.le_of_eq (atLeft.trans atRight.symm))

theorem atOffset_append {patches : List Patch} {offset : Nat}
    (sorted : patches.Pairwise fun first second => first.offset ≤ second.offset)
    (least : ∀ patch ∈ patches, offset ≤ patch.offset) :
    atOffset patches offset ++ patches.filter (·.offset != offset) = patches := by
  induction patches with
  | nil => rfl
  | cons patch rest ih =>
      obtain ⟨below, sorted⟩ := List.pairwise_cons.mp sorted
      obtain ⟨here, least⟩ := List.forall_mem_cons.mp least
      have others := ih sorted least
      by_cases same : patch.offset = offset
      · rw [atOffset, List.filter_cons_of_pos (by simpa using same),
          List.filter_cons_of_neg (by simpa using same), List.cons_append]
        exact congrArg (patch :: ·) others
      · have beyond : ∀ later ∈ patch :: rest, ¬later.offset = offset := by
          intro later member
          rcases List.mem_cons.mp member with rfl | member
          · exact same
          · have above := below later member
            omega
        have nothing : atOffset (patch :: rest) offset = [] :=
          List.filter_eq_nil_iff.mpr fun later member => by simpa using beyond later member
        have all : (patch :: rest).filter (·.offset != offset) = patch :: rest :=
          List.filter_eq_self.mpr fun later member => by simpa using beyond later member
        rw [nothing, all, List.nil_append]

theorem flatMap_atOffset {patches : List Patch} {offsets : List Nat}
    (sorted : patches.Pairwise fun first second => first.offset ≤ second.offset)
    (ascend : offsets.Pairwise (· < ·)) (all : ∀ patch ∈ patches, patch.offset ∈ offsets) :
    offsets.flatMap (atOffset patches) = patches := by
  induction offsets generalizing patches with
  | nil =>
      rw [List.flatMap_nil]
      exact (List.eq_nil_iff_forall_not_mem.mpr fun patch member => by simpa using all patch member).symm
  | cons offset offsets ih =>
      obtain ⟨above, ascend⟩ := List.pairwise_cons.mp ascend
      have least : ∀ patch ∈ patches, offset ≤ patch.offset := by
        intro patch member
        rcases List.mem_cons.mp (all patch member) with same | later
        · omega
        · exact Nat.le_of_lt (above _ later)
      have others : offsets.flatMap (atOffset patches) = patches.filter (·.offset != offset) := by
        have further := @ih (patches.filter (·.offset != offset))
          (sorted.sublist List.filter_sublist) ascend ?_
        · rw [← further]
          refine List.flatMap_congr fun later member => ?_
          have different : later ≠ offset := Nat.ne_of_gt (above later member)
          rw [atOffset, atOffset, List.filter_filter]
          refine List.filter_congr fun patch _ => ?_
          by_cases same : patch.offset = later
          · simp [same, different]
          · simp [same]
        · intro patch member
          obtain ⟨inList, different⟩ := List.mem_filter.mp member
          refine (List.mem_cons.mp (all patch inList)).resolve_left fun same => ?_
          simp [same] at different
      rw [List.flatMap_cons, others]
      exact atOffset_append sorted least

/-- The offsets of the patches, from the first to the last. -/
def offsets (patches : List Patch) : List Nat :=
  ((ascending patches).map (·.offset)).dedup

theorem mem_offsets {patches : List Patch} {offset : Nat} :
    offset ∈ offsets patches ↔ atOffset patches offset ≠ [] := by
  rw [offsets, List.mem_dedup, List.mem_map]
  constructor
  · rintro ⟨patch, member, here⟩
    exact List.ne_nil_of_mem (mem_atOffset.mpr ⟨(ascending_perm patches).mem_iff.mp member, here⟩)
  · intro some_
    obtain ⟨patch, member⟩ := List.exists_mem_of_ne_nil _ some_
    obtain ⟨inList, here⟩ := mem_atOffset.mp member
    exact ⟨patch, (ascending_perm patches).mem_iff.mpr inList, here⟩

theorem offsets_ascend (patches : List Patch) : (offsets patches).Pairwise (· < ·) := by
  have sorted : (offsets patches).Pairwise (· ≤ ·) :=
    (List.pairwise_map.mpr (ascending_sorted patches)).sublist (List.dedup_sublist _)
  have distinct : (offsets patches).Pairwise (· ≠ ·) := List.nodup_dedup _
  exact (sorted.and distinct).imp fun both => Nat.lt_of_le_of_ne both.1 both.2

theorem ascending_eq (patches : List Patch) :
    (offsets patches).flatMap (atOffset patches) = ascending patches := by
  have parts := flatMap_atOffset (ascending_sorted patches) (offsets_ascend patches) ?_
  · rw [← parts]
    exact List.flatMap_congr fun offset _ => (ascending_stable patches offset).symm
  · intro patch member
    refine mem_offsets.mpr (List.ne_nil_of_mem (mem_atOffset.mpr ⟨?_, rfl⟩))
    exact (ascending_perm patches).mem_iff.mp member

theorem descending_reverse_eq (patches : List Patch) :
    (offsets patches).flatMap (fun offset => (atOffset patches offset).reverse) =
      (descending patches).reverse := by
  have sorted : (descending patches).reverse.Pairwise fun first second =>
      first.offset ≤ second.offset := List.pairwise_reverse.mpr (descending_sorted patches)
  have parts := flatMap_atOffset sorted (offsets_ascend patches) ?_
  · rw [← parts]
    refine List.flatMap_congr fun offset _ => ?_
    rw [atOffset, atOffset, List.filter_reverse, descending_stable]
  · intro patch member
    refine mem_offsets.mpr (List.ne_nil_of_mem (mem_atOffset.mpr ⟨?_, rfl⟩))
    exact (descending_perm patches).mem_iff.mp (List.mem_reverse.mp member)

/-! Patches that can be applied. -/

/-- Patches at one offset of which only the first one can replace bytes. -/
structure Tie (text : List Char) (offset : Nat) (group : List Patch) : Prop where
  fits : ∀ patch ∈ group, patch.Fits text
  here : ∀ patch ∈ group, patch.offset = offset
  inserted : ∀ patch ∈ group.tail, patch.length = 0

section Descends

variable {text : List Char} {patches : List Patch} (descends : Descends text (descending patches))

include descends

theorem Descends.fits_all : ∀ patch ∈ patches, patch.Fits text := fun patch member =>
  descends.fits patch ((descending_perm patches).mem_iff.mpr member)

theorem Descends.pairwise :
    (descending patches).Pairwise fun first second => second.span.stop ≤ first.offset := by
  have : IsTrans Patch fun first second => second.span.stop ≤ first.offset := by
    refine ⟨fun first second third left right => ?_⟩
    have ordered : second.offset ≤ second.span.stop := Nat.le_add_right _ _
    omega
  exact descends.apart.pairwise

theorem Descends.tie (offset : Nat) : Tie text offset (atOffset patches offset) := by
  refine ⟨fun patch member => descends.fits_all patch (mem_atOffset.mp member).1,
    fun patch member => (mem_atOffset.mp member).2, fun patch member => ?_⟩
  have apart : (atOffset patches offset).Pairwise fun first second =>
      second.span.stop ≤ first.offset := by
    rw [atOffset, ← descending_stable]
    exact descends.pairwise.sublist List.filter_sublist
  obtain ⟨first, others, parts⟩ := List.exists_cons_of_ne_nil
    (List.ne_nil_of_mem (List.mem_of_mem_tail member))
  rw [parts] at member apart
  have stop := (List.pairwise_cons.mp apart).1 patch member
  have atFirst := (mem_atOffset.mp (parts ▸ List.mem_cons_self : first ∈ atOffset patches offset)).2
  have atPatch := (mem_atOffset.mp (parts ▸ List.mem_cons_of_mem first member)).2
  have span : patch.span.stop = patch.offset + patch.length := rfl
  omega

theorem Descends.stop_le {patch later : Patch} (inList : patch ∈ patches) (laterInList : later ∈ patches)
    (before : patch.offset < later.offset) : patch.span.stop ≤ later.offset := by
  let Apart : Patch → Patch → Prop := fun first second =>
    (first.offset < second.offset → first.span.stop ≤ second.offset) ∧
      (second.offset < first.offset → second.span.stop ≤ first.offset)
  have : Std.Symm Apart := ⟨fun _ _ both => both.symm⟩
  have apart : (descending patches).Pairwise Apart :=
    ((descending_sorted patches).and descends.pairwise).imp fun {first second} both =>
      ⟨fun below => absurd both.1 (Nat.not_le.mpr below), fun _ => both.2⟩
  have different : patch ≠ later := by
    rintro rfl
    exact Nat.lt_irrefl _ before
  have inOrder : ∀ patch ∈ patches, patch ∈ descending patches := fun patch member =>
    (descending_perm patches).mem_iff.mpr member
  exact (apart.forall (inOrder patch inList) (inOrder later laterInList) different).1 before

theorem Descends.follows : (ascending patches).Pairwise LineDiff.Follows := by
  rw [← ascending_eq, List.pairwise_flatMap]
  constructor
  · intro offset _
    have tie := descends.tie offset
    cases group : atOffset patches offset with
    | nil => exact .nil
    | cons first inserted =>
        rw [group] at tie
        have level : ∀ patch ∈ first :: inserted, ∀ later ∈ inserted, LineDiff.Follows patch later := by
          intro patch member later memberLater
          have same : patch.offset = later.offset :=
            (tie.here patch member).trans (tie.here later (List.mem_cons_of_mem _ memberLater)).symm
          exact ⟨Nat.le_of_eq same, .inr ⟨same, tie.inserted later memberLater⟩⟩
        refine List.pairwise_cons.mpr ⟨level first List.mem_cons_self, ?_⟩
        refine List.pairwise_iff_forall_sublist.mpr fun {patch later} pair => ?_
        exact level patch (List.mem_cons_of_mem _ (pair.subset (by simp))) later (pair.subset (by simp))
  · refine (offsets_ascend patches).imp fun {offset next} below patch member later memberLater => ?_
    obtain ⟨inList, here⟩ := mem_atOffset.mp member
    obtain ⟨laterInList, there⟩ := mem_atOffset.mp memberLater
    have before : patch.offset < later.offset := by omega
    exact ⟨Nat.le_of_lt before, .inl (descends.stop_le inList laterInList before)⟩

end Descends

end Patch

namespace LineDiff

open Patch (Tie atOffset woven)

/-- What a diff shows for the patches at one offset: what is inserted there stands in front of the bytes that
the first patch replaces, so that it is replaced before them. -/
def shownAt? (text : List Char) : List Patch → Option (List Char)
  | [] => some []
  | patch :: inserted =>
      (splitAt? (texts inserted ++ Text.between text patch.offset patch.span.stop) patch.length).map
        fun (_, after) => patch.text.toList ++ after

/-- What stands in the text if the patches at one offset are applied. -/
def appliedAt (group : List Patch) : List Char :=
  texts group.reverse

theorem texts_append (left right : List Patch) : texts (left ++ right) = texts left ++ texts right :=
  List.flatMap_append

theorem byteLength_texts_reverse (patches : List Patch) :
    byteLength (texts patches.reverse) = byteLength (texts patches) := by
  induction patches with
  | nil => rfl
  | cons patch rest ih =>
      rw [List.reverse_cons, texts_append, Text.byteLength_append, ih]
      simp only [texts, List.flatMap_cons, List.flatMap_nil, List.append_nil, Text.byteLength_append]
      omega

theorem woven_inserted {text : List Char} {offset : Nat} {inserted others : List Patch}
    (here : ∀ patch ∈ inserted, patch.offset = offset) (nothing : ∀ patch ∈ inserted, patch.length = 0) :
    woven text offset (inserted ++ others) = texts inserted ++ woven text offset others := by
  induction inserted with
  | nil => rfl
  | cons patch rest ih =>
      obtain ⟨first, here⟩ := List.forall_mem_cons.mp here
      obtain ⟨empty, nothing⟩ := List.forall_mem_cons.mp nothing
      have stop : patch.span.stop = offset := by
        have span : patch.span.stop = patch.offset + patch.length := rfl
        omega
      rw [List.cons_append, woven, first, stop, Text.between_self, ih here nothing]
      simp [texts]

section Tie

variable {text front kept covered back : List Char} {start offset : Nat} {patch : Patch}
  {inserted : List Patch} (whole : text = front ++ (kept ++ (covered ++ back)))
  (size : byteLength front = start) (place : start + byteLength kept = offset)
  (width : byteLength covered = patch.length) (tie : Tie text offset (patch :: inserted))

include whole size place width tie

theorem shownAt?_cons :
    shownAt? text (patch :: inserted) =
      (splitAt? (texts inserted ++ covered) patch.length).map fun (_, after) =>
        patch.text.toList ++ after := by
  have here : patch.offset = offset := tie.here patch List.mem_cons_self
  have span : patch.span.stop = patch.offset + patch.length := rfl
  have parts : text = (front ++ kept) ++ (covered ++ back) := by rw [whole, List.append_assoc]
  have between : Text.between text patch.offset patch.span.stop = covered := by
    rw [parts]
    exact Text.between_of_parts back (by rw [Text.byteLength_append]; omega) (by omega)
  rw [shownAt?, between]

theorem preview?_tie {others : List Patch} (behind : ∀ next ∈ others.head?, patch.span.stop ≤ next.offset) :
    preview? (kept ++ (covered ++ back)) start (patch :: inserted ++ others) = (do
      let shown ← shownAt? text (patch :: inserted)
      let after ← preview? back patch.span.stop others
      return kept ++ shown ++ after) := by
  have here : patch.offset = offset := tie.here patch List.mem_cons_self
  have span : patch.offset + byteLength covered = patch.span.stop := by rw [width]; rfl
  have insertedHere : ∀ other ∈ inserted, other.offset = patch.offset := fun other member =>
    (tie.here other (List.mem_cons_of_mem _ member)).trans here.symm
  have behind' : ∀ next ∈ others.head?, patch.offset + byteLength covered ≤ next.offset := by
    rwa [span]
  rw [List.cons_append, preview?_cons (by omega), preview?_inserted insertedHere tie.inserted,
    preview?_front behind', span, shownAt?_cons whole size place width tie]
  cases preview? back patch.span.stop others with
  | none => cases splitAt? (texts inserted ++ covered) patch.length <;> simp
  | some after =>
      have inside : patch.length ≤ byteLength (texts inserted ++ covered) := by
        rw [Text.byteLength_append]
        omega
      simp only [Option.map_some, Option.bind_eq_bind, Option.bind_some, ← List.append_assoc]
      rw [Text.splitAt?_append_left after inside]
      cases splitAt? (texts inserted ++ covered) patch.length with
      | none => rfl
      | some parts => simp

theorem byteLength_shownAt? {shown : List Char} (result : shownAt? text (patch :: inserted) = some shown) :
    byteLength shown = byteLength (appliedAt (patch :: inserted)) := by
  rw [shownAt?_cons whole size place width tie, Option.map_eq_some_iff] at result
  obtain ⟨⟨removed, after⟩, split, rfl⟩ := result
  obtain ⟨parts, length⟩ := Text.splitAt?_eq_some_iff.mp split
  have total := congrArg byteLength parts
  rw [appliedAt, byteLength_texts_reverse]
  simp only [texts, List.flatMap_cons, Text.byteLength_append] at total ⊢
  omega

omit width in
theorem woven_tie (others : List Patch) :
    woven text start ((patch :: inserted).reverse ++ others) =
      kept ++ appliedAt (patch :: inserted) ++ woven text patch.span.stop others := by
  have here : patch.offset = offset := tie.here patch List.mem_cons_self
  have insertedHere : ∀ other ∈ inserted.reverse, other.offset = patch.offset := fun other member =>
    (tie.here other (List.mem_cons_of_mem _ (List.mem_reverse.mp member))).trans here.symm
  have nothing : ∀ other ∈ inserted.reverse, other.length = 0 := fun other member =>
    tie.inserted other (List.mem_reverse.mp member)
  have atHead : ((inserted.reverse ++ patch :: others).head?.map (·.offset)).getD
      (byteLength text) = patch.offset := by
    cases later : inserted.reverse with
    | nil => rfl
    | cons other _ => exact insertedHere other (by simp [later])
  have isFront : Patch.IsFront text ((inserted.reverse ++ patch :: others).head?.map (·.offset))
      (front ++ kept) :=
    ⟨covered ++ back, by rw [whole, List.append_assoc], by
      rw [atHead, Text.byteLength_append]
      omega⟩
  have reached : byteLength (front ++ kept) = patch.offset := by
    rw [Text.byteLength_append]
    omega
  rw [List.reverse_cons, List.append_assoc, List.singleton_append, ← size,
    Patch.woven_front isFront, reached, woven_inserted insertedHere nothing, woven, Text.between_self,
    appliedAt, List.reverse_cons, texts_append]
  simp [texts]

end Tie

/-- The patches of a text offset by offset. A diff shows what applying them gives if and only if it does so at
each offset. -/
theorem preview?_offsets {text front rest : List Char} {start : Nat} {offsets : List Nat}
    {group : Nat → List Patch} (ties : ∀ offset, Tie text offset (group offset))
    (whole : text = front ++ rest) (size : byteLength front = start)
    (later : ∀ offset ∈ offsets, start ≤ offset) (filled : ∀ offset ∈ offsets, group offset ≠ [])
    (apart : offsets.Pairwise fun offset next => ∀ patch ∈ group offset, patch.span.stop ≤ next) :
    (preview? rest start (offsets.flatMap group) = none ↔
      ∃ offset ∈ offsets, shownAt? text (group offset) = none) ∧
    ∀ shown, preview? rest start (offsets.flatMap group) = some shown →
      (shown = woven text start (offsets.flatMap fun offset => (group offset).reverse) ↔
        ∀ offset ∈ offsets, shownAt? text (group offset) = some (appliedAt (group offset))) := by
  -- `front` is the text up to the end of the patches at the last offset.
  induction offsets generalizing front rest start with
  | nil =>
      have between : Text.between text start (byteLength text) = rest := by
        have parts : text = front ++ (rest ++ []) := by rw [whole, List.append_nil]
        rw [parts]
        exact Text.between_of_parts [] size (by simp [size])
      simp [preview?, woven, between, eq_comm]
  | cons offset offsets ih =>
      obtain ⟨here, -⟩ := List.forall_mem_cons.mp later
      obtain ⟨some_, filled⟩ := List.forall_mem_cons.mp filled
      obtain ⟨beyond, apart⟩ := List.pairwise_cons.mp apart
      obtain ⟨patch, inserted, parts⟩ := List.exists_cons_of_ne_nil some_
      have tie := ties offset
      rw [parts] at tie beyond
      have fits := tie.fits patch List.mem_cons_self
      have atOffset := tie.here patch List.mem_cons_self
      have span : patch.span.stop = patch.offset + patch.length := rfl
      have beyond : ∀ next ∈ offsets, patch.span.stop ≤ next := fun next member =>
        beyond next member patch List.mem_cons_self
      obtain ⟨kept, covered, back, rfl, place, width⟩ :=
        Text.exists_parts whole fits.start fits.stop (by omega) (by omega)
      have place : start + byteLength kept = offset := by omega
      have width : byteLength covered = patch.length := by omega
      have behind : ∀ next ∈ (offsets.flatMap group).head?, patch.span.stop ≤ next.offset := by
        intro next isHead
        obtain ⟨later, member, inGroup⟩ := List.mem_flatMap.mp (List.mem_of_mem_head? isHead)
        rw [(ties later).here next inGroup]
        exact beyond later member
      obtain ⟨noneIff, sameIff⟩ := @ih (front ++ kept ++ covered) back patch.span.stop
        (by simp [whole]) (by simp only [Text.byteLength_append]; omega) beyond filled apart
      have step := preview?_tie whole size place width tie behind
      have applied := woven_tie whole size place tie
        (offsets.flatMap fun offset => (group offset).reverse)
      rw [List.flatMap_cons, List.flatMap_cons, parts, step, applied]
      constructor
      · simp only [List.mem_cons, exists_eq_or_imp, parts, ← noneIff]
        cases shownAt? text (patch :: inserted) with
        | none => simp
        | some first => cases preview? back patch.span.stop (offsets.flatMap group) <;> simp
      · intro shown result
        simp only [Option.bind_eq_bind, Option.bind_eq_some_iff] at result
        obtain ⟨first, isFirst, after, isAfter, same⟩ := result
        obtain rfl := Option.some.inj same
        have length := byteLength_shownAt? whole size place width tie isFirst
        rw [List.forall_mem_cons, parts, isFirst, ← sameIff after isAfter, List.append_assoc,
          List.append_assoc, List.append_cancel_left_eq, Option.some.injEq]
        constructor
        · intro both
          exact Text.append_inj both length
        · rintro ⟨rfl, rfl⟩
          rfl

section Descends

variable {text : List Char} {patches : List Patch}
  (descends : Patch.Descends text (Patch.descending patches))

include descends

theorem preview?_spec :
    (preview? text 0 (Patch.ascending patches) = none ↔
      ∃ offset, shownAt? text (atOffset patches offset) = none) ∧
    ∀ shown, preview? text 0 (Patch.ascending patches) = some shown →
      (shown = woven text 0 (Patch.descending patches).reverse ↔
        ∀ offset, shownAt? text (atOffset patches offset) =
          some (appliedAt (atOffset patches offset))) := by
  have apart : (Patch.offsets patches).Pairwise fun offset next =>
      ∀ patch ∈ atOffset patches offset, patch.span.stop ≤ next := by
    refine ((Patch.offsets_ascend patches).imp_of_mem ?_)
    intro offset next _ isNext below patch member
    obtain ⟨later, isLater⟩ := List.exists_mem_of_ne_nil _ (Patch.mem_offsets.mp isNext)
    obtain ⟨inList, here⟩ := Patch.mem_atOffset.mp member
    obtain ⟨laterInList, there⟩ := Patch.mem_atOffset.mp isLater
    rw [← there]
    exact descends.stop_le inList laterInList (by omega)
  have whole : text = [] ++ text := rfl
  obtain ⟨noneIff, sameIff⟩ := preview?_offsets descends.tie whole Text.byteLength_nil
    (fun offset _ => Nat.zero_le offset) (fun offset member => Patch.mem_offsets.mp member) apart
  have elsewhere : ∀ offset ∉ Patch.offsets patches, atOffset patches offset = [] := by
    intro offset absent
    by_contra some_
    exact absent (Patch.mem_offsets.mpr some_)
  rw [Patch.ascending_eq] at noneIff sameIff
  rw [Patch.descending_reverse_eq] at sameIff
  constructor
  · rw [noneIff]
    constructor
    · rintro ⟨offset, -, fails⟩
      exact ⟨offset, fails⟩
    · rintro ⟨offset, fails⟩
      refine ⟨offset, ?_, fails⟩
      by_contra absent
      rw [elsewhere offset absent] at fails
      simp [shownAt?] at fails
  · intro shown result
    rw [sameIff shown result]
    constructor
    · intro agree offset
      by_cases present : offset ∈ Patch.offsets patches
      · exact agree offset present
      · rw [elsewhere offset present]
        rfl
    · exact fun agree offset _ => agree offset

end Descends

end LineDiff

/-! Patches at ascending offsets. -/

namespace Patch

section Ascend

variable {patches : List Patch} (ascend : patches.Pairwise fun first second => first.offset < second.offset)

include ascend

theorem ascending_of_ascend : ascending patches = patches :=
  List.mergeSort_of_pairwise (ascend.imp fun below => decide_eq_true (Nat.le_of_lt below))

theorem descending_of_ascend : (descending patches).reverse = patches := by
  rw [descending_of_ascending ascend, List.reverse_reverse]

theorem Descends.apart_of_ascend {text : List Char} (descends : Descends text (descending patches)) :
    patches.Pairwise fun first second => first.span.stop ≤ second.offset := by
  have apart := List.pairwise_reverse.mpr descends.pairwise
  rwa [descending_of_ascend ascend] at apart

end Ascend

end Patch

namespace LineDiff

open Patch (woven)

theorem preview?_woven {text front rest : List Char} {patches : List Patch} (whole : text = front ++ rest)
    (fits : ∀ patch ∈ patches, patch.Fits text)
    (apart : patches.Pairwise fun first second => first.span.stop ≤ second.offset)
    (behind : ∀ patch ∈ patches.head?, byteLength front ≤ patch.offset) :
    preview? rest (byteLength front) patches = some (woven text (byteLength front) patches) := by
  induction patches generalizing front rest with
  | nil =>
      have parts : text = front ++ (rest ++ []) := by rw [whole, List.append_nil]
      have between : Text.between text (byteLength front) (byteLength text) = rest := by
        rw [parts]
        exact Text.between_of_parts [] rfl (by simp)
      rw [preview?, woven, between]
  | cons patch patches ih =>
      obtain ⟨here, fits⟩ := List.forall_mem_cons.mp fits
      obtain ⟨beyond, apart⟩ := List.pairwise_cons.mp apart
      have first : byteLength front ≤ patch.offset := behind patch rfl
      have span : patch.span.stop = patch.offset + patch.length := rfl
      obtain ⟨kept, covered, back, rfl, size, width⟩ :=
        Text.exists_parts whole here.start here.stop first (by omega)
      have reached : byteLength (front ++ kept ++ covered) = patch.span.stop := by
        simp only [Text.byteLength_append]
        omega
      have next : ∀ later ∈ patches.head?, patch.span.stop ≤ later.offset := fun later isHead =>
        beyond later (List.mem_of_mem_head? isHead)
      have further := @ih (front ++ kept ++ covered) back (by simp [whole]) fits apart (reached ▸ next)
      have place : patch.offset + byteLength covered = patch.span.stop := by omega
      have between : Text.between text (byteLength front) patch.offset = kept := by
        rw [whole]
        exact Text.between_of_parts _ rfl (by omega)
      have taken : splitAt? (covered ++ woven text patch.span.stop patches) patch.length =
          some (covered, woven text patch.span.stop patches) :=
        Text.splitAt?_eq_some_iff.mpr ⟨rfl, by omega⟩
      rw [preview?_cons size, preview?_front (place.symm ▸ next), place, ← reached, further, reached, woven,
        between]
      simp only [Option.map_some, Option.bind_eq_bind, Option.bind_some, taken]
      rfl

theorem woven_kept {text front kept rest : List Char} {patches : List Patch}
    (whole : text = front ++ (kept ++ rest)) (fits : ∀ patch ∈ patches, patch.Fits text)
    (apart : patches.Pairwise fun first second => first.span.stop ≤ second.offset)
    (behind : ∀ patch ∈ patches.head?, byteLength (front ++ kept) ≤ patch.offset) :
    woven text (byteLength front) patches = kept ++ woven text (byteLength (front ++ kept)) patches := by
  have nearer : ∀ patch ∈ patches.head?, byteLength front ≤ patch.offset := by
    intro patch isHead
    have beyond := behind patch isHead
    rw [Text.byteLength_append] at beyond
    omega
  have here := preview?_woven whole fits apart nearer
  have there := @preview?_woven text (front ++ kept) rest patches (by simp [whole]) fits apart behind
  rw [Text.byteLength_append] at behind
  rw [preview?_front behind, ← Text.byteLength_append, there, Option.map_some, Option.some.injEq] at here
  exact here.symm

theorem exists_woven (text : List Char) (start : Nat) (front : List Patch) (patch : Patch) :
    ∃ before, ∀ back,
      woven text start (front ++ patch :: back) = before ++ woven text patch.span.stop back := by
  induction front generalizing start with
  | nil => exact ⟨Text.between text start patch.offset ++ patch.text.toList, fun back => rfl⟩
  | cons first front ih =>
      obtain ⟨before, parts⟩ := ih first.span.stop
      refine ⟨Text.between text start first.offset ++ first.text.toList ++ before, fun back => ?_⟩
      rw [List.cons_append, woven, parts]
      simp only [List.append_assoc]

end LineDiff

end Requalify
