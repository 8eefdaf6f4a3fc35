import Requalify.Proofs.Patch.Compatible
import Requalify.Session

/-!
What a session records under any sequence of requests. The store keeps one ordered set for each file,
so the patches of a file stay pairwise compatible, and a request is accepted exactly if it is compatible
with every recorded patch of its file. A refused request and a repeated one change nothing.
-/

namespace Requalify

namespace Store

def recordedIn (sets : List PatchSet) (path : FilePath) : List Patch :=
  (sets.filter fun set => set.path.SameEntry path).flatMap (·.patches)

/-- The patches recorded for one file. -/
def recorded (store : Store) (path : FilePath) : List Patch :=
  recordedIn store.sets path

structure Consistent (store : Store) : Prop where
  distinct : store.sets.Pairwise fun left right => ¬left.path.SameEntry right.path
  ordered : ∀ set ∈ store.sets, set.Ordered

theorem consistent_empty : empty.Consistent :=
  ⟨List.Pairwise.nil, by simp [empty]⟩

theorem recordedIn_cons (set : PatchSet) (rest : List PatchSet) (path : FilePath) :
    recordedIn (set :: rest) path =
      (if set.path.SameEntry path then set.patches else []) ++ recordedIn rest path := by
  by_cases same : set.path.SameEntry path <;> simp [recordedIn, same]

theorem recordedIn_append (front back : List PatchSet) (path : FilePath) :
    recordedIn (front ++ back) path = recordedIn front path ++ recordedIn back path := by
  simp [recordedIn]

theorem recordedIn_eq_nil {sets : List PatchSet} {path : FilePath}
    (absent : ∀ set ∈ sets, ¬set.path.SameEntry path) : recordedIn sets path = [] := by
  have none : sets.filter (fun set => set.path.SameEntry path) = [] := by
    simpa using absent
  simp [recordedIn, none]

theorem recorded_of_mem {store : Store} (consistent : store.Consistent) {set : PatchSet}
    {path : FilePath} (member : set ∈ store.sets) (same : set.path.SameEntry path) :
    store.recorded path = set.patches := by
  obtain ⟨front, back, parts⟩ := List.append_of_mem member
  have distinct := consistent.distinct
  rw [parts, List.pairwise_append] at distinct
  obtain ⟨-, inBack, across⟩ := distinct
  have frontAbsent : ∀ other ∈ front, ¬other.path.SameEntry path := fun other inFront matched =>
    across other inFront set (by simp) (matched.trans same.symm)
  have backAbsent : ∀ other ∈ back, ¬other.path.SameEntry path := fun other member matched =>
    List.rel_of_pairwise_cons inBack member (same.trans matched.symm)
  rw [recorded, parts, recordedIn_append, recordedIn_cons, recordedIn_eq_nil frontAbsent,
    recordedIn_eq_nil backAbsent, if_pos same]
  simp

theorem mem_recorded {store : Store} {path : FilePath} {patch : Patch} :
    patch ∈ store.recorded path ↔
      ∃ set ∈ store.sets, set.path.SameEntry path ∧ patch ∈ set.patches := by
  simp [recorded, recordedIn, and_assoc]

theorem recorded_pairwise {store : Store} (consistent : store.Consistent) (path : FilePath) :
    (store.recorded path).Pairwise Patch.Precedes := by
  by_cases present : ∃ set ∈ store.sets, set.path.SameEntry path
  · obtain ⟨set, member, same⟩ := present
    rw [recorded_of_mem consistent member same]
    exact consistent.ordered set member
  · have absent : store.recorded path = [] :=
      recordedIn_eq_nil fun set member same => present ⟨set, member, same⟩
    rw [absent]
    exact List.Pairwise.nil

/-! Putting a patch in its place. -/

def insertInto (source : Source) (patch : Patch) : List PatchSet → List PatchSet
  | [] => [{ PatchSet.ofSource source with patches := [patch] }]
  | set :: rest =>
      if set.path.SameEntry source.path then set.insert patch :: rest
      else set :: insertInto source patch rest

def insert (store : Store) (source : Source) (patch : Patch) : Store :=
  ⟨insertInto source patch store.sets⟩

theorem mem_insertInto {source : Source} {patch : Patch} {sets : List PatchSet} {set : PatchSet}
    (member : set ∈ insertInto source patch sets) :
    set ∈ sets ∨ (∃ old ∈ sets, old.path.SameEntry source.path ∧ set = old.insert patch) ∨
      set = { PatchSet.ofSource source with patches := [patch] } := by
  induction sets with
  | nil =>
      rw [insertInto, List.mem_singleton] at member
      exact .inr (.inr member)
  | cons first rest ih =>
      rw [insertInto] at member
      split at member
      next same =>
        rcases List.mem_cons.mp member with rfl | inRest
        · exact .inr (.inl ⟨first, by simp, same, rfl⟩)
        · exact .inl (by simp [inRest])
      next different =>
        rcases List.mem_cons.mp member with rfl | inRest
        · exact .inl (by simp)
        · rcases ih inRest with old | ⟨old, oldMember, same, equal⟩ | new
          · exact .inl (by simp [old])
          · exact .inr (.inl ⟨old, by simp [oldMember], same, equal⟩)
          · exact .inr (.inr new)

theorem insertInto_nonempty {source : Source} {patch : Patch} {sets : List PatchSet}
    (nonempty : ∀ set ∈ sets, set.patches ≠ []) :
    ∀ set ∈ insertInto source patch sets, set.patches ≠ [] := by
  intro set member
  rcases mem_insertInto member with old | ⟨old, -, -, rfl⟩ | rfl
  · exact nonempty set old
  · simp [PatchSet.insert]
  · simp

theorem insertInto_distinct {source : Source} {patch : Patch} {sets : List PatchSet}
    (distinct : sets.Pairwise fun left right => ¬left.path.SameEntry right.path) :
    (insertInto source patch sets).Pairwise fun left right => ¬left.path.SameEntry right.path := by
  induction sets with
  | nil => simp [insertInto]
  | cons first rest ih =>
      rw [List.pairwise_cons] at distinct
      rw [insertInto]
      split
      next same => exact List.pairwise_cons.mpr distinct
      next different =>
        refine List.pairwise_cons.mpr ⟨?_, ih distinct.2⟩
        intro set member
        rcases mem_insertInto member with old | ⟨old, oldMember, -, rfl⟩ | rfl
        · exact distinct.1 set old
        · exact distinct.1 old oldMember
        · exact different

theorem insert_consistent {store : Store} (consistent : store.Consistent) {source : Source}
    {patch : Patch} (compatible : ∀ other ∈ store.recorded source.path, other.Compatible patch) :
    (store.insert source patch).Consistent := by
  refine ⟨insertInto_distinct consistent.distinct, ?_⟩
  intro set member
  rcases mem_insertInto member with old | ⟨old, oldMember, same, rfl⟩ | rfl
  · exact consistent.ordered set old
  · rw [recorded_of_mem consistent oldMember same] at compatible
    exact (consistent.ordered old oldMember).insert compatible
  · simp [PatchSet.Ordered]

theorem recordedIn_insertInto {source : Source} {patch : Patch} {sets : List PatchSet}
    (free : ∀ other ∈ recordedIn sets source.path, other.offset ≠ patch.offset) (path : FilePath) :
    (recordedIn (insertInto source patch sets) path).Perm
      (if source.path.SameEntry path then patch :: recordedIn sets path
      else recordedIn sets path) := by
  induction sets with
  | nil =>
      by_cases same : source.path.SameEntry path
      · simp [insertInto, recordedIn, PatchSet.ofSource, same]
      · simp [insertInto, recordedIn, PatchSet.ofSource, same]
  | cons first rest ih =>
      rw [insertInto]
      by_cases here : first.path.SameEntry source.path
      · have freeHere : ∀ other ∈ first.patches, other.offset ≠ patch.offset := by
          intro other member
          exact free other (by simp [recordedIn, here, member])
        have placed := PatchSet.patches_insert_perm freeHere
        rw [if_pos here, recordedIn_cons, recordedIn_cons]
        by_cases same : source.path.SameEntry path
        · have firstSame : first.path.SameEntry path := here.trans same
          rw [if_pos same, if_pos firstSame, if_pos (show (first.insert patch).path.SameEntry path
            from firstSame)]
          exact placed.append_right _
        · have firstOther : ¬first.path.SameEntry path := fun found => same (here.symm.trans found)
          rw [if_neg same, if_neg firstOther, if_neg (show ¬(first.insert patch).path.SameEntry path
            from firstOther)]
      · have freeRest : ∀ other ∈ recordedIn rest source.path, other.offset ≠ patch.offset := by
          intro other member
          exact free other (by rw [recordedIn_cons]; exact List.mem_append_right _ member)
        have placed := ih freeRest
        rw [if_neg here, recordedIn_cons, recordedIn_cons]
        by_cases same : source.path.SameEntry path
        · rw [if_pos same] at placed ⊢
          exact (placed.append_left _).trans List.perm_middle
        · rw [if_neg same] at placed ⊢
          exact placed.append_left _

theorem recorded_insert {store : Store} {source : Source} {patch : Patch}
    (compatible : ∀ other ∈ store.recorded source.path, other.Compatible patch) (path : FilePath) :
    ((store.insert source patch).recorded path).Perm
      (if source.path.SameEntry path then patch :: store.recorded path else store.recorded path) :=
  recordedIn_insertInto (fun other member => (compatible other member).1) path

/-! Adding a patch. -/

theorem addTo_of_match {source : Source} {patch : Patch} {set : PatchSet} {front back : List PatchSet}
    (absent : ∀ other ∈ front, ¬other.path.SameEntry source.path)
    (same : set.path.SameEntry source.path) :
    addTo source patch (front ++ set :: back) =
      (set.add patch).map fun (set, outcome) => (front ++ set :: back, outcome) := by
  induction front with
  | nil => rw [List.nil_append, addTo, if_pos same]; rfl
  | cons first rest ih =>
      have tail := ih fun other member => absent other (by simp [member])
      rw [List.cons_append, addTo, if_neg (absent first (by simp)), tail]
      cases set.add patch <;> rfl

theorem insertInto_of_match {source : Source} {patch : Patch} {set : PatchSet}
    {front back : List PatchSet} (absent : ∀ other ∈ front, ¬other.path.SameEntry source.path)
    (same : set.path.SameEntry source.path) :
    insertInto source patch (front ++ set :: back) = front ++ set.insert patch :: back := by
  induction front with
  | nil => rw [List.nil_append, insertInto, if_pos same]; rfl
  | cons first rest ih =>
      have tail := ih fun other member => absent other (by simp [member])
      rw [List.cons_append, insertInto, if_neg (absent first (by simp)), tail]
      rfl

theorem addTo_of_absent {source : Source} {patch : Patch} {sets : List PatchSet}
    (absent : ∀ set ∈ sets, ¬set.path.SameEntry source.path) :
    addTo source patch sets = .ok (insertInto source patch sets, .inserted) := by
  induction sets with
  | nil => rfl
  | cons first rest ih =>
      have tail := ih fun other member => absent other (by simp [member])
      rw [addTo, insertInto, if_neg (absent first (by simp)), if_neg (absent first (by simp)), tail]
      rfl

theorem Consistent.add_cases {store : Store} (consistent : store.Consistent) (source : Source)
    (patch : Patch) :
    (∃ existing ∈ store.recorded source.path, existing.offset = patch.offset ∧
      existing.SameEdit patch ∧ store.add source patch = .ok (store, .duplicate)) ∨
    (∃ existing ∈ store.recorded source.path, existing.offset = patch.offset ∧
      ¬existing.SameEdit patch ∧ ∃ file, store.add source patch =
        .error (.sameOffset file patch.offset existing.text patch.text)) ∨
    (∃ existing ∈ store.recorded source.path, existing.span.Overlaps patch.span ∧
      (∀ other ∈ store.recorded source.path, other.offset ≠ patch.offset) ∧
      ∃ file, store.add source patch = .error (.overlap file existing.span patch.span)) ∨
    ((∀ other ∈ store.recorded source.path, other.Compatible patch) ∧
      store.add source patch = .ok (store.insert source patch, .inserted)) := by
  by_cases present : ∃ set ∈ store.sets, set.path.SameEntry source.path
  · obtain ⟨set, member, same⟩ := present
    obtain ⟨front, back, parts⟩ := List.append_of_mem member
    have distinct := consistent.distinct
    rw [parts, List.pairwise_append] at distinct
    have absent : ∀ other ∈ front, ¬other.path.SameEntry source.path := fun other inFront matched =>
      distinct.2.2 other inFront set (by simp) (matched.trans same.symm)
    have added : store.add source patch = (set.add patch).map fun (set, outcome) =>
        (⟨front ++ set :: back⟩, outcome) := by
      rw [add, parts, addTo_of_match absent same]
      cases set.add patch <;> rfl
    have placed : store.insert source patch = ⟨front ++ set.insert patch :: back⟩ := by
      rw [insert, parts, insertInto_of_match absent same]
    have unchanged : store = ⟨front ++ set :: back⟩ := by
      cases store
      exact congrArg Store.mk parts
    rw [recorded_of_mem consistent member same, added, placed]
    rcases (consistent.ordered set member).add_cases patch with
      ⟨existing, inSet, offset, edit, result⟩ | ⟨existing, inSet, offset, edit, result⟩ |
      ⟨existing, inSet, overlap, free, result⟩ | ⟨compatible, result⟩
    · refine .inl ⟨existing, inSet, offset, edit, ?_⟩
      rw [result, unchanged]
      rfl
    · refine .inr (.inl ⟨existing, inSet, offset, edit, set.relativePath, ?_⟩)
      rw [result]
      rfl
    · refine .inr (.inr (.inl ⟨existing, inSet, overlap, free, set.relativePath, ?_⟩))
      rw [result]
      rfl
    · refine .inr (.inr (.inr ⟨compatible, ?_⟩))
      rw [result]
      rfl
  · have absent : ∀ set ∈ store.sets, ¬set.path.SameEntry source.path := fun set member same =>
      present ⟨set, member, same⟩
    have nothing : store.recorded source.path = [] := recordedIn_eq_nil absent
    refine .inr (.inr (.inr ⟨by simp [nothing], ?_⟩))
    rw [add, addTo_of_absent absent]
    rfl

end Store

/-- An edit that some construct of a source asks for. -/
structure Request where
  source : Source
  edit : Edit

namespace Session

/-- What becomes of a session and what it answers; a refused request leaves it as it is. -/
def attempt (session : Session) (request : Request) : Session × Except Conflict AddOutcome :=
  match session.add request.source request.edit with
  | .ok (next, outcome) => (next, .ok outcome)
  | .error conflict => (session, .error conflict)

/-- A session after requests in sequence, whatever it answered to each of them. -/
def after (requests : List Request) : Session :=
  requests.foldl (fun session request => (session.attempt request).1) empty

theorem attempt_cases {session : Session} (consistent : session.store.Consistent)
    (request : Request) :
    (∃ existing ∈ session.store.recorded request.source.path,
      existing.offset = request.edit.patch.offset ∧ existing.SameEdit request.edit.patch ∧
      session.attempt request = (session, .ok .duplicate)) ∨
    (∃ existing ∈ session.store.recorded request.source.path,
      existing.offset = request.edit.patch.offset ∧ ¬existing.SameEdit request.edit.patch ∧
      ∃ file, session.attempt request = (session, .error
        (.sameOffset file request.edit.patch.offset existing.text request.edit.patch.text))) ∨
    (∃ existing ∈ session.store.recorded request.source.path,
      existing.span.Overlaps request.edit.patch.span ∧
      (∀ other ∈ session.store.recorded request.source.path,
        other.offset ≠ request.edit.patch.offset) ∧
      ∃ file, session.attempt request =
        (session, .error (.overlap file existing.span request.edit.patch.span))) ∨
    ((∀ other ∈ session.store.recorded request.source.path,
        other.Compatible request.edit.patch) ∧
      session.attempt request =
        (⟨session.store.insert request.source request.edit.patch, session.diagnostics.push
          (Diagnostic.ofPatch request.source request.edit.patch request.edit.trigger)⟩,
          .ok .inserted)) := by
  rcases consistent.add_cases request.source request.edit.patch with
    ⟨existing, member, offset, edit, result⟩ | ⟨existing, member, offset, edit, file, result⟩ |
    ⟨existing, member, overlap, free, file, result⟩ | ⟨compatible, result⟩
  · exact .inl ⟨existing, member, offset, edit, by simp [attempt, add, result]⟩
  · exact .inr (.inl ⟨existing, member, offset, edit, file, by simp [attempt, add, result]⟩)
  · exact .inr (.inr (.inl ⟨existing, member, overlap, free, file, by
      simp [attempt, add, result]⟩))
  · exact .inr (.inr (.inr ⟨compatible, by simp [attempt, add, result]⟩))

theorem attempt_consistent {session : Session} (consistent : session.store.Consistent)
    (request : Request) : (session.attempt request).1.store.Consistent := by
  rcases attempt_cases consistent request with
    ⟨_, _, _, _, result⟩ | ⟨_, _, _, _, _, result⟩ | ⟨_, _, _, _, _, result⟩ |
    ⟨compatible, result⟩
  · rw [result]; exact consistent
  · rw [result]; exact consistent
  · rw [result]; exact consistent
  · rw [result]; exact Store.insert_consistent consistent compatible

theorem after_consistent (requests : List Request) : (after requests).store.Consistent := by
  have run (start : Session) (consistent : start.store.Consistent) :
      (requests.foldl (fun session request => (session.attempt request).1) start).store.Consistent := by
    induction requests generalizing start with
    | nil => exact consistent
    | cons request rest ih => exact ih _ (attempt_consistent consistent request)
  exact run empty Store.consistent_empty

section Answers

variable {session : Session} (consistent : session.store.Consistent) (request : Request)

include consistent

theorem attempt_eq_duplicate_iff :
    (session.attempt request).2 = .ok .duplicate ↔
      ∃ other ∈ session.store.recorded request.source.path,
        other.offset = request.edit.patch.offset ∧ other.SameEdit request.edit.patch := by
  rcases attempt_cases consistent request with
    ⟨existing, member, offset, edit, result⟩ | ⟨existing, member, offset, edit, file, result⟩ |
    ⟨existing, member, overlap, free, file, result⟩ | ⟨compatible, result⟩
  · rw [result]
    exact ⟨fun _ => ⟨existing, member, offset, edit⟩, fun _ => rfl⟩
  · rw [result]
    refine ⟨fun impossible => by simp at impossible, ?_⟩
    rintro ⟨other, otherMember, otherOffset, otherEdit⟩
    have ordered := Store.recorded_pairwise consistent request.source.path
    have same := Patch.eq_of_offset_eq ordered otherMember member (otherOffset.trans offset.symm)
    exact absurd (same ▸ otherEdit) edit
  · rw [result]
    refine ⟨fun impossible => by simp at impossible, ?_⟩
    rintro ⟨other, otherMember, otherOffset, -⟩
    exact absurd otherOffset (free other otherMember)
  · rw [result]
    refine ⟨fun impossible => by simp at impossible, ?_⟩
    rintro ⟨other, otherMember, otherOffset, -⟩
    exact absurd otherOffset (compatible other otherMember).1

theorem attempt_eq_sameOffset_iff :
    (∃ file existing, (session.attempt request).2 = .error
        (.sameOffset file request.edit.patch.offset existing request.edit.patch.text)) ↔
      ∃ other ∈ session.store.recorded request.source.path,
        other.offset = request.edit.patch.offset ∧ ¬other.SameEdit request.edit.patch := by
  rcases attempt_cases consistent request with
    ⟨existing, member, offset, edit, result⟩ | ⟨existing, member, offset, edit, file, result⟩ |
    ⟨existing, member, overlap, free, file, result⟩ | ⟨compatible, result⟩
  · rw [result]
    refine ⟨fun ⟨_, _, impossible⟩ => by simp at impossible, ?_⟩
    rintro ⟨other, otherMember, otherOffset, otherEdit⟩
    have ordered := Store.recorded_pairwise consistent request.source.path
    have same := Patch.eq_of_offset_eq ordered otherMember member (otherOffset.trans offset.symm)
    exact absurd (same ▸ edit) otherEdit
  · rw [result]
    exact ⟨fun _ => ⟨existing, member, offset, edit⟩, fun _ => ⟨file, existing.text, rfl⟩⟩
  · rw [result]
    refine ⟨fun ⟨_, _, impossible⟩ => by simp at impossible, ?_⟩
    rintro ⟨other, otherMember, otherOffset, -⟩
    exact absurd otherOffset (free other otherMember)
  · rw [result]
    refine ⟨fun ⟨_, _, impossible⟩ => by simp at impossible, ?_⟩
    rintro ⟨other, otherMember, otherOffset, -⟩
    exact absurd otherOffset (compatible other otherMember).1

theorem attempt_eq_overlap_iff :
    (∃ file existing, (session.attempt request).2 =
        .error (.overlap file existing request.edit.patch.span)) ↔
      (∀ other ∈ session.store.recorded request.source.path,
        other.offset ≠ request.edit.patch.offset) ∧
      ∃ other ∈ session.store.recorded request.source.path,
        other.span.Overlaps request.edit.patch.span := by
  rcases attempt_cases consistent request with
    ⟨existing, member, offset, edit, result⟩ | ⟨existing, member, offset, edit, file, result⟩ |
    ⟨existing, member, overlap, free, file, result⟩ | ⟨compatible, result⟩
  · rw [result]
    exact ⟨fun ⟨_, _, impossible⟩ => by simp at impossible,
      fun ⟨free, _⟩ => absurd offset (free existing member)⟩
  · rw [result]
    exact ⟨fun ⟨_, _, impossible⟩ => by simp at impossible,
      fun ⟨free, _⟩ => absurd offset (free existing member)⟩
  · rw [result]
    exact ⟨fun _ => ⟨free, existing, member, overlap⟩, fun _ => ⟨file, existing.span, rfl⟩⟩
  · rw [result]
    exact ⟨fun ⟨_, _, impossible⟩ => by simp at impossible,
      fun ⟨_, other, otherMember, overlap⟩ => absurd overlap (compatible other otherMember).2⟩

theorem attempt_eq_inserted_iff :
    (session.attempt request).2 = .ok .inserted ↔
      ∀ other ∈ session.store.recorded request.source.path,
        other.Compatible request.edit.patch := by
  rcases attempt_cases consistent request with
    ⟨existing, member, offset, edit, result⟩ | ⟨existing, member, offset, edit, file, result⟩ |
    ⟨existing, member, overlap, free, file, result⟩ | ⟨compatible, result⟩
  · rw [result]
    exact ⟨fun impossible => by simp at impossible,
      fun compatible => absurd offset (compatible existing member).1⟩
  · rw [result]
    exact ⟨fun impossible => by simp at impossible,
      fun compatible => absurd offset (compatible existing member).1⟩
  · rw [result]
    exact ⟨fun impossible => by simp at impossible,
      fun compatible => absurd overlap (compatible existing member).2⟩
  · rw [result]
    exact ⟨fun _ => compatible, fun _ => rfl⟩

theorem attempt_of_not_inserted (refused : (session.attempt request).2 ≠ .ok .inserted) :
    (session.attempt request).1 = session := by
  rcases attempt_cases consistent request with
    ⟨_, _, _, _, result⟩ | ⟨_, _, _, _, _, result⟩ | ⟨_, _, _, _, _, result⟩ | ⟨_, result⟩
  · rw [result]
  · rw [result]
  · rw [result]
  · rw [result] at refused
    exact absurd rfl refused

theorem attempt_of_inserted (accepted : (session.attempt request).2 = .ok .inserted) :
    (session.attempt request).1 =
      ⟨session.store.insert request.source request.edit.patch, session.diagnostics.push
        (Diagnostic.ofPatch request.source request.edit.patch request.edit.trigger)⟩ := by
  rcases attempt_cases consistent request with
    ⟨_, _, _, _, result⟩ | ⟨_, _, _, _, _, result⟩ | ⟨_, _, _, _, _, result⟩ | ⟨_, result⟩
  · simp [result] at accepted
  · simp [result] at accepted
  · simp [result] at accepted
  · rw [result]

end Answers

/-- In every session that requests lead to, the patches of each file are pairwise compatible, and the
answer to a request is decided by all patches recorded for its file. -/
theorem answers_by_compatibility (requests : List Request) (request : Request) :
    let session := after requests
    let recorded := session.store.recorded request.source.path
    let patch := request.edit.patch
    let next := (session.attempt request).1
    let answer := (session.attempt request).2
    (∀ path, (session.store.recorded path).Pairwise fun left right =>
      left.offset ≠ right.offset ∧ ¬left.span.Overlaps right.span) ∧
    (answer = .ok .duplicate ↔
      ∃ other ∈ recorded, other.offset = patch.offset ∧ other.SameEdit patch) ∧
    ((∃ file existing, answer = .error (.sameOffset file patch.offset existing patch.text)) ↔
      ∃ other ∈ recorded, other.offset = patch.offset ∧ ¬other.SameEdit patch) ∧
    ((∃ file existing, answer = .error (.overlap file existing patch.span)) ↔
      (∀ other ∈ recorded, other.offset ≠ patch.offset) ∧
        ∃ other ∈ recorded, other.span.Overlaps patch.span) ∧
    (answer = .ok .inserted ↔
      ∀ other ∈ recorded, other.offset ≠ patch.offset ∧ ¬other.span.Overlaps patch.span) ∧
    (answer ≠ .ok .inserted →
      (∀ path, next.store.recorded path = session.store.recorded path) ∧
        next.diagnostics = session.diagnostics) ∧
    (answer = .ok .inserted →
      (∀ path, (next.store.recorded path).Perm
        (if request.source.path.SameEntry path then patch :: session.store.recorded path
        else session.store.recorded path)) ∧
        next.diagnostics = session.diagnostics.push
          (Diagnostic.ofPatch request.source patch request.edit.trigger)) := by
  intro session recorded patch next answer
  have consistent : session.store.Consistent := after_consistent requests
  have decided := attempt_eq_inserted_iff consistent request
  refine ⟨fun path => (Store.recorded_pairwise consistent path).imp Patch.Precedes.compatible,
    attempt_eq_duplicate_iff consistent request, attempt_eq_sameOffset_iff consistent request,
    attempt_eq_overlap_iff consistent request, decided, ?_, ?_⟩
  · intro refused
    have unchanged : next = session := attempt_of_not_inserted consistent request refused
    rw [unchanged]
    exact ⟨fun _ => rfl, rfl⟩
  · intro accepted
    have grown := attempt_of_inserted consistent request accepted
    have placed : next.store = session.store.insert request.source patch :=
      congrArg Session.store grown
    refine ⟨fun path => ?_, congrArg Session.diagnostics grown⟩
    rw [placed]
    exact Store.recorded_insert (decided.mp accepted) path

end Session

end Requalify
