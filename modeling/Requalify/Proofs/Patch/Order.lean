import Mathlib.Data.List.Pairwise
import Mathlib.Data.List.Perm.Basic
import Requalify.Proofs.Patch.Acceptance

/-!
The order in which patches reach the store does not matter. A list of patches is accepted exactly if any
two of them for one file agree, which is a symmetric relation, and the sets that come out hold what was
asked for, in order of offset. Sources of one file must have one text.
-/

namespace Requalify

namespace Patch

/-- What a patch does, without its label. -/
def content (patch : Patch) : Nat × Nat × String :=
  (patch.offset, patch.length, patch.text)

theorem content_eq_iff {left right : Patch} :
    left.content = right.content ↔ left.offset = right.offset ∧ left.SameEdit right := by
  simp [content, SameEdit]

theorem Compatible.congr {left other right : Patch} (compatible : left.Compatible right)
    (same : left.content = other.content) : other.Compatible right := by
  obtain ⟨offset, edit⟩ := content_eq_iff.mp same
  have span : other.span = left.span := by
    simp [Patch.span, offset, edit.1]
  refine ⟨?_, ?_⟩
  · rw [← offset]
    exact compatible.1
  · rw [span]
    exact compatible.2

/-- Two patches can both be accepted for one file. -/
def Agree (left right : Patch) : Prop :=
  left.content = right.content ∨ left.Compatible right

theorem Agree.symm {left right : Patch} (agree : left.Agree right) : right.Agree left :=
  agree.imp Eq.symm Compatible.symm

end Patch

/-- The patch sets of two stores are compared without the labels of the patches. -/
def PatchSet.content (set : PatchSet) :
    List FilePath.Component × String × String × List (Nat × Nat × String) :=
  (set.path.components, set.relativePath, set.digest, set.patches.map Patch.content)

namespace Store

/-- Add patches in sequence, up to the first conflict. -/
def addAll (store : Store) : List (Source × Patch) → Except Conflict Store
  | [] => .ok store
  | (source, patch) :: rest =>
      match store.add source patch with
      | .error conflict => .error conflict
      | .ok (next, _) => next.addAll rest

def RequestsAgree (left right : Source × Patch) : Prop :=
  left.1.path.SameEntry right.1.path → left.2.Agree right.2

theorem RequestsAgree.symm {left right : Source × Patch} (agree : RequestsAgree left right) :
    RequestsAgree right left :=
  fun same => (agree same.symm).symm

/-- The store holds what the requests asked for, and nothing else. -/
structure Reflects (store : Store) (requests : List (Source × Patch)) : Prop where
  consistent : store.Consistent
  nonempty : ∀ set ∈ store.sets, set.patches ≠ []
  header : ∀ set ∈ store.sets, ∃ request ∈ requests, set.path = request.1.path ∧
    set.relativePath = request.1.relativePath ∧ set.digest = request.1.digest
  contents : ∀ path content, content ∈ (store.recorded path).map Patch.content ↔
    ∃ request ∈ requests, request.1.path.SameEntry path ∧ request.2.content = content

theorem reflects_empty : empty.Reflects [] where
  consistent := consistent_empty
  nonempty := by simp [empty]
  header := by simp [empty]
  contents := by simp [empty, recorded, recordedIn]

/-- What is asked for with one request more. -/
theorem asked_append {requests : List (Source × Patch)} {source : Source} {patch : Patch}
    {path : FilePath} {content : Nat × Nat × String} :
    (∃ request ∈ requests ++ [(source, patch)],
      request.1.path.SameEntry path ∧ request.2.content = content) ↔
      (∃ request ∈ requests, request.1.path.SameEntry path ∧ request.2.content = content) ∨
        source.path.SameEntry path ∧ patch.content = content := by
  simp [or_and_right, exists_or]

theorem Reflects.repeated {store : Store} {requests : List (Source × Patch)}
    (reflects : store.Reflects requests) {source : Source} {patch existing : Patch}
    (member : existing ∈ store.recorded source.path) (same : existing.content = patch.content) :
    store.Reflects (requests ++ [(source, patch)]) where
  consistent := reflects.consistent
  nonempty := reflects.nonempty
  header := by
    intro set setMember
    obtain ⟨request, known, header⟩ := reflects.header set setMember
    exact ⟨request, by simp [known], header⟩
  contents := by
    intro path content
    rw [asked_append, reflects.contents path content]
    refine (or_iff_left_of_imp ?_).symm
    rintro ⟨samePath, rfl⟩
    obtain ⟨first, firstKnown, firstPath, firstContent⟩ :=
      (reflects.contents source.path existing.content).mp (List.mem_map_of_mem member)
    exact ⟨first, firstKnown, firstPath.trans samePath, firstContent.trans same⟩

theorem Reflects.inserted {store : Store} {requests : List (Source × Patch)}
    (reflects : store.Reflects requests) {source : Source} {patch : Patch}
    (compatible : ∀ other ∈ store.recorded source.path, other.Compatible patch) :
    (store.insert source patch).Reflects (requests ++ [(source, patch)]) where
  consistent := insert_consistent reflects.consistent compatible
  nonempty := insertInto_nonempty reflects.nonempty
  header := by
    intro set member
    rcases mem_insertInto member with old | ⟨old, oldMember, -, rfl⟩ | rfl
    · obtain ⟨request, known, header⟩ := reflects.header set old
      exact ⟨request, by simp [known], header⟩
    · obtain ⟨request, known, header⟩ := reflects.header old oldMember
      exact ⟨request, by simp [known], header⟩
    · exact ⟨(source, patch), by simp, rfl, rfl, rfl⟩
  contents := by
    intro path content
    have placed := (recorded_insert compatible path).map Patch.content
    rw [placed.mem_iff, asked_append, ← reflects.contents path content]
    by_cases same : source.path.SameEntry path
    · rw [if_pos same, List.map_cons, List.mem_cons, or_comm, eq_comm, and_iff_right same]
    · rw [if_neg same, or_iff_left fun asked => same asked.1]

/-- A patch is accepted exactly if it agrees with every patch asked for so far. -/
theorem Reflects.add {store : Store} {requests : List (Source × Patch)}
    (reflects : store.Reflects requests) (source : Source) (patch : Patch) :
    ((∀ request ∈ requests, RequestsAgree request (source, patch)) ∧
      ∃ next outcome, store.add source patch = .ok (next, outcome) ∧
        next.Reflects (requests ++ [(source, patch)])) ∨
    (¬(∀ request ∈ requests, RequestsAgree request (source, patch)) ∧
      ∃ conflict, store.add source patch = .error conflict) := by
  have requested (existing : Patch) (member : existing ∈ store.recorded source.path) :
      ∃ request ∈ requests, request.1.path.SameEntry source.path ∧
        request.2.content = existing.content :=
    (reflects.contents source.path existing.content).mp (List.mem_map_of_mem member)
  have held (request : Source × Patch) (known : request ∈ requests)
      (same : request.1.path.SameEntry source.path) :
      ∃ existing ∈ store.recorded source.path, existing.content = request.2.content :=
    List.mem_map.mp ((reflects.contents source.path request.2.content).mpr
      ⟨request, known, same, rfl⟩)
  have ordered := recorded_pairwise reflects.consistent source.path
  rcases reflects.consistent.add_cases source patch with
    ⟨existing, member, offset, edit, result⟩ | ⟨existing, member, offset, edit, file, result⟩ |
    ⟨existing, member, overlap, free, file, result⟩ | ⟨compatible, result⟩
  · have same : existing.content = patch.content := Patch.content_eq_iff.mpr ⟨offset, edit⟩
    refine .inl ⟨?_, store, .duplicate, result, reflects.repeated member same⟩
    intro request known samePath
    obtain ⟨other, otherMember, otherContent⟩ := held request known samePath
    by_cases equal : other = existing
    · exact .inl (otherContent.symm.trans (equal ▸ same))
    · have apart : other.Compatible existing :=
        (ordered.imp Patch.Precedes.compatible).forall otherMember member equal
      have fromPatch : patch.Compatible other := apart.symm.congr same
      exact .inr (fromPatch.symm.congr otherContent)
  · refine .inr ⟨fun agree => ?_, _, result⟩
    obtain ⟨request, known, samePath, sameContent⟩ := requested existing member
    rcases agree request known samePath with equal | compatible
    · exact edit (Patch.content_eq_iff.mp (sameContent.symm.trans equal)).2
    · exact (compatible.congr sameContent).1 offset
  · refine .inr ⟨fun agree => ?_, _, result⟩
    obtain ⟨request, known, samePath, sameContent⟩ := requested existing member
    rcases agree request known samePath with equal | compatible
    · exact free existing member (Patch.content_eq_iff.mp (sameContent.symm.trans equal)).1
    · exact (compatible.congr sameContent).2 overlap
  · refine .inl ⟨?_, _, .inserted, result, reflects.inserted compatible⟩
    intro request known samePath
    obtain ⟨other, otherMember, otherContent⟩ := held request known samePath
    exact .inr ((compatible other otherMember).congr otherContent)

/-- Going on from requests already accepted, the rest is accepted exactly if all of them agree. -/
theorem Reflects.addAll {store : Store} {done : List (Source × Patch)}
    (reflects : store.Reflects done) (rest : List (Source × Patch)) :
    ((∃ final, store.addAll rest = .ok final) ↔
      (∀ request ∈ rest, ∀ earlier ∈ done, RequestsAgree earlier request) ∧
        rest.Pairwise RequestsAgree) ∧
    ∀ final, store.addAll rest = .ok final → final.Reflects (done ++ rest) := by
  -- `done` grows by each accepted request, which the rest then has to agree with.
  induction rest generalizing store done with
  | nil =>
      refine ⟨by simp [Store.addAll], ?_⟩
      intro final result
      rw [Store.addAll, Except.ok.injEq] at result
      simpa [result] using reflects
  | cons request rest ih =>
      obtain ⟨source, patch⟩ := request
      rw [Store.addAll]
      rcases reflects.add source patch with
        ⟨agree, next, outcome, result, grown⟩ | ⟨disagree, conflict, result⟩
      · obtain ⟨accepted, final⟩ := ih grown
        rw [result]
        refine ⟨accepted.trans ?_, by simpa using final⟩
        simp only [List.mem_append, List.mem_cons, List.not_mem_nil, or_false, List.pairwise_cons]
        constructor
        · rintro ⟨earlier, pairwise⟩
          refine ⟨?_, fun other member => earlier other member _ (.inr rfl), pairwise⟩
          rintro other (rfl | member) first known
          · exact agree first known
          · exact earlier other member first (.inl known)
        · rintro ⟨earlier, first, pairwise⟩
          refine ⟨?_, pairwise⟩
          rintro other member known (inDone | rfl)
          · exact earlier other (.inr member) known inDone
          · exact first other member
      · rw [result]
        refine ⟨⟨fun ⟨_, impossible⟩ => by simp at impossible, ?_⟩, by simp⟩
        rintro ⟨earlier, -⟩
        exact absurd (fun known member => earlier _ (by simp) known member) disagree

theorem addAll_ok_iff (requests : List (Source × Patch)) :
    (∃ final, empty.addAll requests = .ok final) ↔ requests.Pairwise RequestsAgree := by
  simpa using (reflects_empty.addAll requests).1

theorem addAll_reflects {requests : List (Source × Patch)} {final : Store}
    (result : empty.addAll requests = .ok final) : final.Reflects requests := by
  simpa using (reflects_empty.addAll requests).2 final result

/-! Two stores that hold the same requests. -/

/-- Two lists in order of offset with the same contents are equal. -/
theorem contents_eq_of_mem_iff {left right : List Patch} (leftOrdered : left.Pairwise Patch.Precedes)
    (rightOrdered : right.Pairwise Patch.Precedes)
    (same : ∀ content, content ∈ left.map Patch.content ↔ content ∈ right.map Patch.content) :
    left.map Patch.content = right.map Patch.content := by
  have rising {patches : List Patch} (ordered : patches.Pairwise Patch.Precedes) :
      (patches.map Patch.content).Pairwise fun first second => first.1 < second.1 :=
    List.pairwise_map.mpr (ordered.imp fun precedes => precedes.1)
  have nodup {patches : List Patch} (ordered : patches.Pairwise Patch.Precedes) :
      (patches.map Patch.content).Nodup :=
    (rising ordered).imp fun {first second} below => by
      rintro rfl
      exact Nat.lt_irrefl _ below
  have permutation := (List.perm_ext_iff_of_nodup (nodup leftOrdered) (nodup rightOrdered)).mpr same
  exact permutation.eq_of_pairwise (fun _ _ _ _ below above => absurd below (Nat.lt_asymm above))
    (rising leftOrdered) (rising rightOrdered)

def SourcesAgree (requests : List (Source × Patch)) : Prop :=
  ∀ left ∈ requests, ∀ right ∈ requests, left.1.path.SameEntry right.1.path →
    left.1.text = right.1.text ∧ left.1.relativePath = right.1.relativePath

theorem Reflects.exists_content_eq {left right : Store} {requests others : List (Source × Patch)}
    (agree : SourcesAgree requests) (same : ∀ request, request ∈ requests ↔ request ∈ others)
    (leftReflects : left.Reflects requests) (rightReflects : right.Reflects others) {set : PatchSet}
    (member : set ∈ left.sets) : ∃ other ∈ right.sets, set.content = other.content := by
  have recordedSame (path : FilePath) (content : Nat × Nat × String) :
      content ∈ (left.recorded path).map Patch.content ↔
        content ∈ (right.recorded path).map Patch.content := by
    rw [leftReflects.contents path content, rightReflects.contents path content]
    simp only [same]
  obtain ⟨patch, patchMember⟩ := List.exists_mem_of_ne_nil _ (leftReflects.nonempty set member)
  have here : patch ∈ left.recorded set.path := by
    rw [recorded_of_mem leftReflects.consistent member rfl]
    exact patchMember
  obtain ⟨found, foundMember, -⟩ := List.mem_map.mp
    ((recordedSame set.path patch.content).mp (List.mem_map_of_mem here))
  obtain ⟨other, otherMember, samePath, -⟩ := mem_recorded.mp foundMember
  have leftPatches : left.recorded set.path = set.patches :=
    recorded_of_mem leftReflects.consistent member rfl
  have rightPatches := recorded_of_mem rightReflects.consistent otherMember samePath
  have patches : set.patches.map Patch.content = other.patches.map Patch.content := by
    have contents := recordedSame set.path
    rw [leftPatches, rightPatches] at contents
    exact contents_eq_of_mem_iff (leftReflects.consistent.ordered set member)
      (rightReflects.consistent.ordered other otherMember) contents
  obtain ⟨first, firstKnown, firstPath, firstRelative, firstDigest⟩ := leftReflects.header set member
  obtain ⟨second, secondKnown, secondPath, secondRelative, secondDigest⟩ :=
    rightReflects.header other otherMember
  have sources : first.1.path.SameEntry second.1.path := by
    rw [← firstPath, ← secondPath]
    exact samePath.symm
  obtain ⟨text, relative⟩ := agree first firstKnown second ((same second).mpr secondKnown) sources
  have digest : first.1.digest = second.1.digest := by
    simp only [Source.digest, text]
  refine ⟨other, otherMember, ?_⟩
  simp only [PatchSet.content, Prod.mk.injEq]
  refine ⟨samePath.symm, ?_, ?_, patches⟩
  · rw [firstRelative, secondRelative, relative]
  · rw [firstDigest, secondDigest, digest]

theorem toSets_perm {store : Store} (nonempty : ∀ set ∈ store.sets, set.patches ≠ []) :
    store.toSets.Perm store.sets := by
  have all : store.sets.filter (fun set => !set.patches.isEmpty) = store.sets := by
    apply List.filter_eq_self.mpr
    intro set member
    simpa using nonempty set member
  rw [toSets, all]
  exact List.mergeSort_perm _ _

theorem toSets_pairwise (store : Store) :
    store.toSets.Pairwise fun left right => left.relativePath ≤ right.relativePath := by
  let comesFirst : PatchSet → PatchSet → Bool := fun left right =>
    left.relativePath ≤ right.relativePath
  have transitive : ∀ first second third, comesFirst first second → comesFirst second third →
      comesFirst first third := by
    intro first second third left right
    exact decide_eq_true (String.le_trans (of_decide_eq_true left) (of_decide_eq_true right))
  have total : ∀ left right, comesFirst left right || comesFirst right left := by
    intro left right
    simpa [comesFirst] using String.le_total left.relativePath right.relativePath
  have sorted : store.toSets.Pairwise fun left right => comesFirst left right :=
    List.pairwise_mergeSort transitive total _
  exact sorted.imp of_decide_eq_true

theorem Reflects.contents_nodup {store : Store} {requests : List (Source × Patch)}
    (reflects : store.Reflects requests) : (store.sets.map PatchSet.content).Nodup :=
  List.pairwise_map.mpr (reflects.consistent.distinct.imp fun {left right} different same =>
    different (congrArg Prod.fst same : left.path.components = right.path.components))

theorem Reflects.toSets_content_perm {left right : Store} {requests others : List (Source × Patch)}
    (agree : SourcesAgree requests) (perm : requests.Perm others)
    (leftReflects : left.Reflects requests) (rightReflects : right.Reflects others) :
    (left.toSets.map PatchSet.content).Perm (right.toSets.map PatchSet.content) := by
  have same (request : Source × Patch) : request ∈ requests ↔ request ∈ others := perm.mem_iff
  have agreeOthers : SourcesAgree others := fun first firstMember second secondMember =>
    agree first ((same first).mpr firstMember) second ((same second).mpr secondMember)
  have sets : (left.sets.map PatchSet.content).Perm (right.sets.map PatchSet.content) := by
    apply (List.perm_ext_iff_of_nodup leftReflects.contents_nodup rightReflects.contents_nodup).mpr
    intro content
    simp only [List.mem_map]
    constructor
    · rintro ⟨set, member, rfl⟩
      obtain ⟨other, otherMember, equal⟩ :=
        exists_content_eq agree same leftReflects rightReflects member
      exact ⟨other, otherMember, equal.symm⟩
    · rintro ⟨set, member, rfl⟩
      obtain ⟨other, otherMember, equal⟩ := exists_content_eq agreeOthers
        (fun request => (same request).symm) rightReflects leftReflects member
      exact ⟨other, otherMember, equal.symm⟩
  exact ((toSets_perm leftReflects.nonempty).map _).trans
    (sets.trans ((toSets_perm rightReflects.nonempty).map _).symm)

/-- Where no two files share a relative path, the sets of a store are known by theirs. -/
theorem Reflects.eq_of_relativePath_eq {store : Store} {requests : List (Source × Patch)}
    (reflects : store.Reflects requests)
    (named : ∀ left ∈ requests, ∀ right ∈ requests,
      left.1.relativePath = right.1.relativePath → left.1.path.SameEntry right.1.path)
    {set other : PatchSet} (member : set ∈ store.sets) (otherMember : other ∈ store.sets)
    (same : set.relativePath = other.relativePath) : set = other := by
  obtain ⟨first, firstKnown, firstPath, firstRelative, -⟩ := reflects.header set member
  obtain ⟨second, secondKnown, secondPath, secondRelative, -⟩ := reflects.header other otherMember
  have sources : first.1.path.SameEntry second.1.path := by
    apply named first firstKnown second secondKnown
    rw [← firstRelative, ← secondRelative, same]
  by_contra different
  have apart : ¬set.path.SameEntry other.path := by
    have symmetric : Std.Symm fun left right : PatchSet => ¬left.path.SameEntry right.path :=
      ⟨fun _ _ different matched => different matched.symm⟩
    exact reflects.consistent.distinct.forall member otherMember different
  rw [firstPath, secondPath] at apart
  exact apart sources

theorem Reflects.toSets_content_eq {left right : Store} {requests others : List (Source × Patch)}
    (agree : SourcesAgree requests) (perm : requests.Perm others)
    (named : ∀ left ∈ requests, ∀ right ∈ requests,
      left.1.relativePath = right.1.relativePath → left.1.path.SameEntry right.1.path)
    (leftReflects : left.Reflects requests) (rightReflects : right.Reflects others) :
    left.toSets.map PatchSet.content = right.toSets.map PatchSet.content := by
  have permutation := toSets_content_perm agree perm leftReflects rightReflects
  have sorted (store : Store) : (store.toSets.map PatchSet.content).Pairwise
      fun first second => first.2.1 ≤ second.2.1 :=
    List.pairwise_map.mpr (toSets_pairwise store)
  refine permutation.eq_of_pairwise ?_ (sorted left) (sorted right)
  intro first second firstMember secondMember below above
  obtain ⟨set, member, rfl⟩ := List.mem_map.mp firstMember
  obtain ⟨other, otherMember, rfl⟩ := List.mem_map.mp (permutation.mem_iff.mpr secondMember)
  have inSets (set : PatchSet) : set ∈ left.toSets ↔ set ∈ left.sets :=
    (toSets_perm leftReflects.nonempty).mem_iff
  rw [leftReflects.eq_of_relativePath_eq named ((inSets set).mp member)
    ((inSets other).mp otherMember) (String.le_antisymm below above)]

/-- Whether a list of patches is accepted, and the sets that come out, do not depend on its order. The
sets stand in order of relative path; only files that share one may change places. -/
theorem addAll_perm {requests permuted : List (Source × Patch)}
    (agree : ∀ left ∈ requests, ∀ right ∈ requests, left.1.path.SameEntry right.1.path →
      left.1.text = right.1.text ∧ left.1.relativePath = right.1.relativePath)
    (perm : requests.Perm permuted) :
    ((∃ final, empty.addAll requests = .ok final) ↔ ∃ final, empty.addAll permuted = .ok final) ∧
    ∀ left right, empty.addAll requests = .ok left → empty.addAll permuted = .ok right →
      (left.toSets.map PatchSet.content).Perm (right.toSets.map PatchSet.content) ∧
      ((∀ left ∈ requests, ∀ right ∈ requests,
          left.1.relativePath = right.1.relativePath → left.1.path.SameEntry right.1.path) →
        left.toSets.map PatchSet.content = right.toSets.map PatchSet.content) := by
  constructor
  · rw [addAll_ok_iff, addAll_ok_iff]
    exact perm.pairwise_iff RequestsAgree.symm
  · intro left right leftResult rightResult
    have leftReflects := addAll_reflects leftResult
    have rightReflects := addAll_reflects rightResult
    exact ⟨Reflects.toSets_content_perm agree perm leftReflects rightReflects,
      fun named => Reflects.toSets_content_eq agree perm named leftReflects rightReflects⟩

theorem addAll_perm_pair :
    let source : Source := ⟨⟨"/p/a.cpp"⟩, "a.cpp", "f(x);"⟩
    let qualify : Source × Patch := (source, Patch.insert 0 "std::" "qualify")
    let remove : Source × Patch := (source, Patch.remove (Span.between 2 3) "remove")
    (∀ left ∈ [qualify, remove], ∀ right ∈ [qualify, remove],
      left.1.path.SameEntry right.1.path →
        left.1.text = right.1.text ∧ left.1.relativePath = right.1.relativePath) ∧
    [qualify, remove].Perm [remove, qualify] ∧
    (∃ final, empty.addAll [qualify, remove] = .ok final) ∧
    ((∃ final, empty.addAll [qualify, remove] = .ok final) ↔
      ∃ final, empty.addAll [remove, qualify] = .ok final) := by
  intro source qualify remove
  have agree : ∀ left ∈ [qualify, remove], ∀ right ∈ [qualify, remove],
      left.1.path.SameEntry right.1.path →
        left.1.text = right.1.text ∧ left.1.relativePath = right.1.relativePath := by
    simp [qualify, remove]
  have swapped : [qualify, remove].Perm [remove, qualify] := .swap _ _ _
  have accepted : [qualify, remove].Pairwise RequestsAgree := by
    refine List.pairwise_pair.mpr fun _ => .inr ?_
    simp only [Patch.Compatible, Span.Overlaps]
    decide
  exact ⟨agree, swapped, (addAll_ok_iff _).mpr accepted, (addAll_perm agree swapped).1⟩

end Store

end Requalify
