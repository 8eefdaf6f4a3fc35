import Requalify.Proofs.Patch.Order
import Requalify.Proofs.Patch.Splice

/-!
What splicing makes of a text, character by character. A character stays if no patch covers it, and what
a patch inserts stands at its offset. The order in which compatible patches are listed does not matter.
-/

namespace Requalify

namespace Patch

def insertedAt (patches : List Patch) (offset : Nat) : List Char :=
  (patches.filter (·.offset == offset)).flatMap (·.text.toList)

def covers (patches : List Patch) (offset : Nat) : Bool :=
  patches.any (·.span.Contains offset)

/-- What becomes of the characters of `text`, which starts at `offset`. -/
def rewriteFrom (patches : List Patch) (offset : Nat) : List Char → List Char
  | [] => []
  | c :: rest =>
      insertedAt patches offset ++ (if covers patches offset then [] else [c]) ++
        rewriteFrom patches (offset + c.utf8Size) rest

/-- A patch may also insert behind the last character. -/
def rewrite (patches : List Patch) (text : List Char) : List Char :=
  rewriteFrom patches 0 text ++ insertedAt patches (Text.byteLength text)

theorem rewriteFrom_append (patches : List Patch) (offset : Nat) (left right : List Char) :
    rewriteFrom patches offset (left ++ right) =
      rewriteFrom patches offset left ++
        rewriteFrom patches (offset + Text.byteLength left) right := by
  induction left generalizing offset with
  | nil => rfl
  | cons c rest ih =>
      simp only [List.cons_append, rewriteFrom, ih, Text.byteLength_cons, Nat.add_assoc,
        List.append_assoc]

/-- Only what the patches do inside the text matters. -/
theorem rewriteFrom_congr {patches others : List Patch} {offset : Nat} {text : List Char}
    (same : ∀ place, offset ≤ place → place < offset + Text.byteLength text →
      insertedAt patches place = insertedAt others place ∧
        covers patches place = covers others place) :
    rewriteFrom patches offset text = rewriteFrom others offset text := by
  induction text generalizing offset with
  | nil => rfl
  | cons c rest ih =>
      have positive := c.utf8Size_pos
      rw [Text.byteLength_cons] at same
      obtain ⟨inserted, covered⟩ := same offset (by omega) (by omega)
      rw [rewriteFrom, rewriteFrom, inserted, covered, ih fun place from_ upTo =>
        same place (by omega) (by omega)]

/-- Where no patch is, the text stays. -/
theorem rewriteFrom_kept {patches : List Patch} {offset : Nat} {text : List Char}
    (kept : ∀ place, offset ≤ place → place < offset + Text.byteLength text →
      insertedAt patches place = [] ∧ covers patches place = false) :
    rewriteFrom patches offset text = text := by
  induction text generalizing offset with
  | nil => rfl
  | cons c rest ih =>
      have positive := c.utf8Size_pos
      rw [Text.byteLength_cons] at kept
      obtain ⟨inserted, covered⟩ := kept offset (by omega) (by omega)
      rw [rewriteFrom, inserted, covered, ih fun place from_ upTo =>
        kept place (by omega) (by omega)]
      rfl

/-- Where patches cover everything and insert nothing, nothing stays. -/
theorem rewriteFrom_gone {patches : List Patch} {offset : Nat} {text : List Char}
    (gone : ∀ place, offset ≤ place → place < offset + Text.byteLength text →
      insertedAt patches place = [] ∧ covers patches place = true) :
    rewriteFrom patches offset text = [] := by
  induction text generalizing offset with
  | nil => rfl
  | cons c rest ih =>
      have positive := c.utf8Size_pos
      rw [Text.byteLength_cons] at gone
      obtain ⟨inserted, covered⟩ := gone offset (by omega) (by omega)
      rw [rewriteFrom, inserted, covered, ih fun place from_ upTo =>
        gone place (by omega) (by omega)]
      rfl

theorem insertedAt_cons (patch : Patch) (rest : List Patch) (place : Nat) :
    insertedAt (patch :: rest) place =
      (if patch.offset = place then patch.text.toList else []) ++ insertedAt rest place := by
  by_cases here : patch.offset = place
  · simp [insertedAt, here]
  · simp [insertedAt, here]

theorem covers_cons (patch : Patch) (rest : List Patch) (place : Nat) :
    covers (patch :: rest) place = (decide (patch.span.Contains place) || covers rest place) :=
  rfl

theorem insertedAt_of_free {patches : List Patch} {place : Nat}
    (free : ∀ patch ∈ patches, patch.offset ≠ place) : insertedAt patches place = [] := by
  rw [insertedAt, List.filter_eq_nil_iff.mpr fun patch member => by simpa using free patch member]
  rfl

section Last

variable {patch : Patch} {rest : List Patch} (last : ∀ earlier ∈ rest, earlier.Precedes patch)

include last

theorem insertedAt_rest {place : Nat} (behind : patch.offset ≤ place) :
    insertedAt rest place = [] := by
  have nothing : rest.filter (·.offset == place) = [] := by
    refine List.filter_eq_nil_iff.mpr fun earlier member => ?_
    have precedes := (last earlier member).1
    rw [beq_iff_eq]
    omega
  rw [insertedAt, nothing]
  rfl

theorem covers_rest {place : Nat} (behind : patch.offset ≤ place) : covers rest place = false := by
  refine List.any_eq_false.mpr fun earlier member => ?_
  have precedes := (last earlier member).2
  rw [decide_eq_true_eq, Span.Contains]
  omega

/-- From the last of several patches on, a text has what that patch makes of it. -/
theorem rewriteFrom_last {removed : List Char} (size : Text.byteLength removed = patch.length)
    (after : List Char) :
    rewriteFrom (patch :: rest) patch.offset (removed ++ after) ++
      insertedAt (patch :: rest) (patch.offset + Text.byteLength (removed ++ after)) =
        patch.text.toList ++ after := by
  have spanStart : patch.span.start = patch.offset := rfl
  have stop : patch.span.stop = patch.offset + Text.byteLength removed := by rw [size]; rfl
  have here : insertedAt (patch :: rest) patch.offset = patch.text.toList := by
    simp [insertedAt_cons, insertedAt_rest last (Nat.le_refl _)]
  have later {place : Nat} (behind : patch.offset < place) :
      insertedAt (patch :: rest) place = [] := by
    have different : patch.offset ≠ place := by omega
    simp [insertedAt_cons, different, insertedAt_rest last (Nat.le_of_lt behind)]
  have inside {place : Nat} (from_ : patch.offset ≤ place) (upTo : place < patch.span.stop) :
      covers (patch :: rest) place = true := by
    simp [covers_cons, Span.Contains, spanStart, from_, upTo]
  have outside {place : Nat} (from_ : patch.span.stop ≤ place) :
      covers (patch :: rest) place = false := by
    have behind : ¬place < patch.span.stop := by omega
    simp [covers_cons, Span.Contains, behind, covers_rest last (show patch.offset ≤ place by omega)]
  have kept (offset : Nat) (text : List Char) (behind : patch.offset < offset)
      (from_ : patch.span.stop ≤ offset) :
      rewriteFrom (patch :: rest) offset text = text :=
    rewriteFrom_kept fun place _ _ => ⟨later (by omega), outside (by omega)⟩
  match removed, after with
  | [], [] => simpa [rewriteFrom] using here
  | [], c :: after =>
      have positive := c.utf8Size_pos
      rw [Text.byteLength_nil, Nat.add_zero] at stop
      rw [List.nil_append, rewriteFrom, here, outside (by omega), kept _ _ (by omega) (by omega),
        later (by rw [Text.byteLength_cons]; omega)]
      simp
  | c :: removed, after =>
      have positive := c.utf8Size_pos
      rw [Text.byteLength_cons] at stop
      have gone : rewriteFrom (patch :: rest) (patch.offset + c.utf8Size) removed = [] :=
        rewriteFrom_gone fun place _ _ => ⟨later (by omega), inside (by omega) (by omega)⟩
      rw [rewriteFrom_append, rewriteFrom, here, inside (by omega) (by omega), gone,
        Text.byteLength_cons, kept _ _ (by omega) (by omega), later (by
          rw [List.cons_append, Text.byteLength_cons]
          omega)]
      simp

/-- The last of several patches changes the text behind what the others have changed. -/
theorem rewrite_cons {before removed after : List Char} (start : Text.byteLength before = patch.offset)
    (size : Text.byteLength removed = patch.length) :
    rewrite (patch :: rest) (before ++ (removed ++ after)) =
      rewrite rest before ++ (patch.text.toList ++ after) := by
  have spanStart : patch.span.start = patch.offset := rfl
  have front : rewriteFrom (patch :: rest) 0 before = rewriteFrom rest 0 before := by
    refine rewriteFrom_congr fun place _ upTo => ?_
    have different : patch.offset ≠ place := by omega
    have outside : ¬patch.span.Contains place := by
      rw [Span.Contains]
      omega
    simp [insertedAt_cons, covers_cons, different, outside]
  rw [rewrite, rewriteFrom_append, front, Nat.zero_add, start, Text.byteLength_append, start,
    List.append_assoc, rewriteFrom_last last size, rewrite, start,
    insertedAt_rest last (Nat.le_refl _), List.append_nil]

end Last

/-- What a patch makes of a part of the text that no other patch touches. -/
theorem rewriteFrom_alone {patches : List Patch} {patch : Patch} {offset : Nat}
    {before removed after : List Char}
    (alone : ∀ place, offset ≤ place →
      place < offset + Text.byteLength (before ++ (removed ++ after)) →
        insertedAt patches place = insertedAt [patch] place ∧
          covers patches place = covers [patch] place)
    (start : offset + Text.byteLength before = patch.offset)
    (size : Text.byteLength removed = patch.length) (more : removed ++ after ≠ []) :
    rewriteFrom patches offset (before ++ (removed ++ after)) =
      before ++ (patch.text.toList ++ after) := by
  have kept : rewriteFrom [patch] offset before = before := by
    refine rewriteFrom_kept fun place _ upTo => ?_
    have different : patch.offset ≠ place := by omega
    have outside : ¬patch.span.Contains place := by
      simp only [Span.Contains, span]
      omega
    simp [insertedAt, covers, different, outside]
  have atEnd : insertedAt [patch] (patch.offset + Text.byteLength (removed ++ after)) = [] := by
    refine insertedAt_of_free (List.forall_mem_singleton.mpr ?_)
    cases rest : removed ++ after with
    | nil => exact absurd rest more
    | cons c others =>
        have positive := c.utf8Size_pos
        rw [Text.byteLength_cons]
        omega
  have behind := @rewriteFrom_last patch [] (by simp) removed size after
  rw [atEnd, List.append_nil] at behind
  rw [rewriteFrom_congr alone, rewriteFrom_append, kept, start, behind]

theorem insertedAt_of_mem {patches : List Patch} (compatible : patches.Pairwise Compatible)
    {patch : Patch} (member : patch ∈ patches) :
    insertedAt patches patch.offset = patch.text.toList := by
  induction patches with
  | nil => simp at member
  | cons first rest ih =>
      obtain ⟨apart, compatibleRest⟩ := List.pairwise_cons.mp compatible
      rw [insertedAt_cons]
      rcases List.mem_cons.mp member with rfl | inRest
      · have others : insertedAt rest patch.offset = [] := by
          rw [insertedAt, List.filter_eq_nil_iff.mpr fun other otherMember => by
            simpa using (apart other otherMember).1.symm]
          rfl
        rw [if_pos rfl, others, List.append_nil]
      · rw [if_neg (apart patch inRest).1, List.nil_append, ih compatibleRest inRest]

section SameContents

variable {patches others : List Patch}

theorem exists_same
    (same : ∀ content, content ∈ patches.map Patch.content → content ∈ others.map Patch.content)
    {patch : Patch} (member : patch ∈ patches) :
    ∃ other ∈ others, other.offset = patch.offset ∧ other.span = patch.span ∧
      other.text = patch.text := by
  obtain ⟨other, otherMember, content⟩ := List.mem_map.mp (same _ (List.mem_map_of_mem member))
  obtain ⟨offset, length, text⟩ := content_eq_iff.mp content
  exact ⟨other, otherMember, offset, by simp [span, offset, length], text⟩

variable (same : ∀ content, content ∈ patches.map Patch.content ↔ content ∈ others.map Patch.content)

include same

theorem insertedAt_congr (compatible : patches.Pairwise Compatible)
    (otherCompatible : others.Pairwise Compatible) (place : Nat) :
    insertedAt patches place = insertedAt others place := by
  by_cases found : ∃ patch ∈ patches, patch.offset = place
  · obtain ⟨patch, member, rfl⟩ := found
    obtain ⟨other, otherMember, offset, -, text⟩ :=
      exists_same (fun content => (same content).mp) member
    rw [insertedAt_of_mem compatible member, ← offset,
      insertedAt_of_mem otherCompatible otherMember, text]
  · have free : ∀ patch ∈ patches, patch.offset ≠ place := fun patch member here =>
      found ⟨patch, member, here⟩
    have otherFree : ∀ other ∈ others, other.offset ≠ place := by
      intro other otherMember here
      obtain ⟨patch, member, offset, -⟩ :=
        exists_same (fun content => (same content).mpr) otherMember
      exact free patch member (offset.trans here)
    rw [insertedAt_of_free free, insertedAt_of_free otherFree]

theorem covers_congr (place : Nat) : covers patches place = covers others place := by
  rw [Bool.eq_iff_iff, covers, covers, List.any_eq_true, List.any_eq_true]
  constructor
  · rintro ⟨patch, member, inside⟩
    obtain ⟨other, otherMember, -, span, -⟩ :=
      exists_same (fun content => (same content).mp) member
    exact ⟨other, otherMember, span ▸ inside⟩
  · rintro ⟨other, otherMember, inside⟩
    obtain ⟨patch, member, -, span, -⟩ :=
      exists_same (fun content => (same content).mpr) otherMember
    exact ⟨patch, member, span ▸ inside⟩

/-- Compatible patches that ask for the same edits make the same of a text. -/
theorem rewrite_congr (compatible : patches.Pairwise Compatible)
    (otherCompatible : others.Pairwise Compatible) (text : List Char) :
    rewrite patches text = rewrite others text := by
  have inserted := insertedAt_congr same compatible otherCompatible
  rw [rewrite, rewrite, inserted,
    rewriteFrom_congr fun place _ _ => ⟨inserted place, covers_congr same place⟩]

end SameContents

theorem descending_precedes {patches : List Patch} (compatible : patches.Pairwise Compatible) :
    (descending patches).Pairwise fun later earlier => earlier.Precedes later := by
  have apart : (descending patches).Pairwise Compatible :=
    (List.mergeSort_perm _ _).symm.pairwise compatible Compatible.symm
  refine ((descending_pairwise compatible).and apart).imp ?_
  rintro later earlier ⟨below, different, -⟩
  have begins : earlier.offset ≤ earlier.span.stop := Nat.le_add_right _ _
  exact ⟨by omega, below⟩

theorem rewrite_nil (text : List Char) : rewrite [] text = text := by
  rw [rewrite, rewriteFrom_kept fun place _ _ => ⟨rfl, rfl⟩]
  exact List.append_nil text

theorem spliceFrom_eq {text head tail rewritten : List Char} {limit : Option Nat}
    {patches : List Patch} (descending : patches.Pairwise fun later earlier => earlier.Precedes later)
    (spliced : spliceFrom text limit head tail patches = .ok rewritten) :
    rewritten = rewrite patches head ++ tail := by
  induction patches generalizing head limit tail with
  | nil =>
      rw [rewrite_nil]
      exact (Except.ok.inj spliced).symm
  | cons patch rest ih =>
      obtain ⟨precedes, descendingRest⟩ := List.pairwise_cons.mp descending
      rw [spliceFrom] at spliced
      split at spliced
      next => simp at spliced
      next =>
        split at spliced
        next => simp at spliced
        next before covered atStart =>
          split at spliced
          next => simp at spliced
          next removed after atStop =>
            obtain ⟨rfl, start⟩ := Text.splitAt?_eq_some_iff.mp atStart
            obtain ⟨rfl, size⟩ := Text.splitAt?_eq_some_iff.mp atStop
            rw [ih descendingRest spliced, rewrite_cons precedes start size]
            simp

/-- Splicing compatible patches into a text rewrites it character by character. -/
theorem splice_eq_rewrite {text : String} {patches : List Patch}
    (compatible : patches.Pairwise Compatible) (fits : ∀ patch ∈ patches, patch.Fits text.toList) :
    splice text patches = .ok (String.ofList (rewrite patches text.toList)) := by
  obtain ⟨rewritten, spliced⟩ := splice_succeeds compatible fits
  rw [splice, spliceChars] at spliced
  cases result : spliceFrom text.toList none text.toList [] (descending patches) with
  | error error => simp [result, Except.map] at spliced
  | ok chars =>
      have whole := spliceFrom_eq (descending_precedes compatible) result
      have perm : (descending patches).Perm patches := List.mergeSort_perm _ _
      have same := rewrite_congr (fun content => (perm.map Patch.content).mem_iff)
        (perm.symm.pairwise compatible Compatible.symm) compatible text.toList
      rw [splice, spliceChars, result, whole, same, List.append_nil]
      rfl

end Patch

/-- Compatible patches of one source can all be recorded, and applying what is recorded rewrites the
text. -/
theorem Store.splice_recorded {source : Source} {patches : List Patch}
    (compatible : patches.Pairwise Patch.Compatible)
    (fits : ∀ patch ∈ patches, patch.Fits source.text.toList) :
    ∃ store, Store.empty.addAll (patches.map fun patch => (source, patch)) = .ok store ∧
      Patch.splice source.text (store.recorded source.path) =
        .ok (String.ofList (Patch.rewrite patches source.text.toList)) := by
  obtain ⟨store, accepted⟩ := (addAll_ok_iff (patches.map fun patch => (source, patch))).mpr
    (List.pairwise_map.mpr (compatible.imp fun agree _ => .inr agree))
  have reflects := addAll_reflects accepted
  have same (content : Nat × Nat × String) :
      content ∈ (store.recorded source.path).map Patch.content ↔
        content ∈ patches.map Patch.content := by
    rw [reflects.contents, List.mem_map]
    constructor
    · rintro ⟨_, member, -, content⟩
      obtain ⟨patch, known, rfl⟩ := List.mem_map.mp member
      exact ⟨patch, known, content⟩
    · rintro ⟨patch, known, content⟩
      exact ⟨_, List.mem_map_of_mem known, rfl, content⟩
  have recorded := (recorded_pairwise reflects.consistent source.path).imp Patch.Precedes.compatible
  refine ⟨store, accepted, ?_⟩
  rw [Patch.splice_eq_rewrite recorded, Patch.rewrite_congr same recorded compatible]
  intro patch member
  obtain ⟨other, known, offset, span, -⟩ :=
    Patch.exists_same (fun content => (same content).mp) member
  have stop : other.offset + other.length = patch.offset + patch.length := congrArg Span.stop span
  exact ⟨offset ▸ (fits other known).start, stop ▸ (fits other known).stop⟩

end Requalify
