import Mathlib.Algebra.Ring.Nat
import Mathlib.Data.List.Permutation
import Requalify.Proofs.Patch.Splice

/-!
What splicing gives, for patches in any order and also where several begin at one offset. The patches are
taken from the last offset to the first, and the first of them that does not fit into what is left is the
error. If there is none, the slices between the patches stay and the texts of the patches stand between
them. A buffer in which each patch replaces its bytes at once goes through the same texts, since in front
of the patch that was applied last it still is the text.
-/

namespace Requalify

namespace Text

/-- Put `replacement` in place of the bytes of a span that lies in the text and cuts no character. -/
def replace? (text : List Char) (span : Span) (replacement : List Char) : Option (List Char) := do
  let (before, rest) ← splitAt? text span.start
  let (_, after) ← splitAt? rest span.length
  return before ++ replacement ++ after

/-- The text between two offsets. -/
def between (text : List Char) (start stop : Nat) : List Char :=
  (slice? text (.between start stop)).getD []

theorem between_of_parts {before middle : List Char} (after : List Char) {start stop : Nat}
    (first : byteLength before = start) (last : start + byteLength middle = stop) :
    between (before ++ (middle ++ after)) start stop = middle := by
  have ordered : start ≤ stop := by omega
  have whole : byteLength before + byteLength middle = stop := by omega
  rw [between, Span.between_of_le ordered, slice?_of_parts after first whole]
  rfl

end Text

namespace Patch

/-- The slices of `text` from `start` on between the patches, which ascend, and the texts of the patches. -/
def woven (text : List Char) (start : Nat) : List Patch → List Char
  | [] => Text.between text start (Text.byteLength text)
  | patch :: rest =>
      Text.between text start patch.offset ++ patch.text.toList ++ woven text patch.span.stop rest

/-- Each patch lies in the text, cuts no character, and ends where the one before it begins or earlier. -/
structure Descends (text : List Char) (patches : List Patch) : Prop where
  fits : ∀ patch ∈ patches, patch.Fits text
  apart : patches.IsChain fun previous patch => patch.span.stop ≤ previous.offset

/-- What is wrong with a patch if the one before it begins at `limit`. It is out of bounds rather than
anything else, and cuts a character rather than that it overlaps. -/
inductive Offends (text : List Char) (limit : Option Nat) (patch : Patch) : SpliceError → Prop
  | outOfBounds (beyond : Text.byteLength text < patch.span.stop) :
      Offends text limit patch (.outOfBounds patch.offset patch.length (Text.byteLength text))
  | splitsCharacter (inside : patch.span.stop ≤ Text.byteLength text) (cuts : ¬patch.Fits text) :
      Offends text limit patch (.splitsCharacter patch.offset)
  | overlap {offset : Nat} (fits : patch.Fits text) (isLimit : limit = some offset)
      (meets : offset < patch.span.stop) : Offends text limit patch (.overlap patch.offset)

/-- Apply patches one after the other to a buffer, which is `text` at first. The result is `none` if the
bytes of a patch that is sound for the text cannot be replaced in the buffer. -/
def replaceFrom (text : List Char) (limit : Option Nat) (buffer : List Char) :
    List Patch → Option (Except SpliceError (List Char))
  | [] => some (.ok buffer)
  | patch :: rest =>
      match patch.defect? text limit with
      | some error => some (.error error)
      | none => do
          let buffer ← Text.replace? buffer patch.span patch.text.toList
          replaceFrom text (some patch.offset) buffer rest

def replaceAll (text : String) (patches : List Patch) : Option (Except SpliceError String) :=
  (replaceFrom text.toList none text.toList (descending patches)).map (·.map String.ofList)

/-! The order in which patches are taken. -/

theorem descending_perm (patches : List Patch) : (descending patches).Perm patches :=
  List.mergeSort_perm _ _

theorem comesFirst_trans (first second third : Patch)
    (left : decide (second.offset ≤ first.offset) = true)
    (right : decide (third.offset ≤ second.offset) = true) :
    decide (third.offset ≤ first.offset) = true := by
  rw [decide_eq_true_eq] at left right ⊢
  omega

theorem comesFirst_total (left right : Patch) :
    (decide (right.offset ≤ left.offset) || decide (left.offset ≤ right.offset)) = true := by
  simpa using Nat.le_total right.offset left.offset

theorem descending_sorted (patches : List Patch) :
    (descending patches).Pairwise fun first second => second.offset ≤ first.offset := by
  have sorted : (descending patches).Pairwise fun first second =>
      decide (second.offset ≤ first.offset) = true :=
    List.pairwise_mergeSort comesFirst_trans comesFirst_total patches
  exact sorted.imp of_decide_eq_true

/-- Sorting keeps the order of patches that are equal in the order. -/
theorem filter_mergeSort {comesFirst : Patch → Patch → Bool}
    (transitive : ∀ first second third, comesFirst first second = true →
      comesFirst second third = true → comesFirst first third = true)
    (total : ∀ left right, (comesFirst left right || comesFirst right left) = true)
    {keeps : Patch → Bool}
    (level : ∀ left right, keeps left = true → keeps right = true → comesFirst left right = true)
    (patches : List Patch) :
    (patches.mergeSort comesFirst).filter keeps = patches.filter keeps := by
  have sorted : (patches.filter keeps).Pairwise fun first second => comesFirst first second = true := by
    refine List.pairwise_iff_forall_sublist.mpr fun {first second} pair => ?_
    have kept : ∀ patch ∈ [first, second], keeps patch = true := fun patch member =>
      (List.mem_filter.mp (pair.subset member)).2
    exact level first second (kept first (by simp)) (kept second (by simp))
  have inOrder : (patches.filter keeps).Sublist (patches.mergeSort comesFirst) :=
    List.sublist_mergeSort transitive total sorted List.filter_sublist
  have inside := inOrder.filter keeps
  rw [List.filter_filter] at inside
  simp only [Bool.and_self] at inside
  have sameLength := ((List.mergeSort_perm patches comesFirst).filter keeps).length_eq
  exact (inside.eq_of_length sameLength.symm).symm

/-- Patches at one offset keep their order. -/
theorem descending_stable (patches : List Patch) (offset : Nat) :
    (descending patches).filter (·.offset == offset) = patches.filter (·.offset == offset) := by
  refine filter_mergeSort comesFirst_trans comesFirst_total ?_ patches
  intro left right atLeft atRight
  rw [beq_iff_eq] at atLeft atRight
  exact decide_eq_true (Nat.le_of_eq (atRight.trans atLeft.symm))

/-- Where no two patches begin at one offset, their order does not depend on the list. -/
theorem descending_congr {patches others : List Patch} (perm : others.Perm patches)
    (distinct : patches.Pairwise fun left right => left.offset ≠ right.offset) :
    descending others = descending patches := by
  have same : (descending others).Perm (descending patches) :=
    (descending_perm others).trans (perm.trans (descending_perm patches).symm)
  refine same.eq_of_pairwise (fun left right inLeft inRight below above => ?_)
    (descending_sorted others) (descending_sorted patches)
  by_contra different
  have : Std.Symm fun left right : Patch => left.offset ≠ right.offset := ⟨fun _ _ => Ne.symm⟩
  have inPatches : left ∈ patches := perm.mem_iff.mp ((descending_perm others).mem_iff.mp inLeft)
  have apart := distinct.forall inPatches ((descending_perm patches).mem_iff.mp inRight) different
  omega

/-! One patch. -/

theorem Fits.stop_le {text : List Char} {patch : Patch} (fits : patch.Fits text) :
    patch.span.stop ≤ Text.byteLength text :=
  Text.isBoundary_le fits.stop

section Defect

variable {text : List Char} {limit : Option Nat} {patch : Patch}

theorem defect?_beyond (beyond : Text.byteLength text < patch.span.stop) :
    patch.defect? text limit =
      some (.outOfBounds patch.offset patch.length (Text.byteLength text)) := by
  simp [defect?, beyond]

theorem defect?_cuts (inside : patch.span.stop ≤ Text.byteLength text) (cuts : ¬patch.Fits text) :
    patch.defect? text limit = some (.splitsCharacter patch.offset) := by
  have boundary : (!Text.isBoundary text patch.span.start || !Text.isBoundary text patch.span.stop) =
      true := by
    by_contra sound
    simp only [Bool.or_eq_true, Bool.not_eq_true', not_or, Bool.not_eq_false] at sound
    exact cuts ⟨sound.1, sound.2⟩
  simp only [defect?, if_neg (Nat.not_lt.mpr inside), if_pos boundary]

theorem defect?_fits (fits : patch.Fits text) :
    patch.defect? text limit =
      if limit.any (· < patch.span.stop) then some (.overlap patch.offset) else none := by
  have start : Text.isBoundary text patch.span.start = true := fits.start
  have stop : Text.isBoundary text patch.span.stop = true := fits.stop
  simp [defect?, Nat.not_lt.mpr fits.stop_le, start, stop]

theorem defect?_overlaps (fits : patch.Fits text) {offset : Nat} (isLimit : limit = some offset)
    (meets : offset < patch.span.stop) : patch.defect? text limit = some (.overlap patch.offset) := by
  rw [defect?_fits fits, isLimit]
  simp [meets]

theorem Offends.defect? {error : SpliceError} (offends : Offends text limit patch error) :
    patch.defect? text limit = some error := by
  cases offends with
  | outOfBounds beyond => exact defect?_beyond beyond
  | splitsCharacter inside cuts => exact defect?_cuts inside cuts
  | overlap fits isLimit meets => exact defect?_overlaps fits isLimit meets

/-- A patch has a defect, or it fits and ends at the limit or before it. -/
theorem defect?_cases (text : List Char) (limit : Option Nat) (patch : Patch) :
    (∃ error, Offends text limit patch error) ∨
      patch.Fits text ∧ ∀ offset ∈ limit, patch.span.stop ≤ offset := by
  rcases Nat.lt_or_ge (Text.byteLength text) patch.span.stop with beyond | inside
  · exact .inl ⟨_, .outOfBounds beyond⟩
  · by_cases fits : patch.Fits text
    · by_cases apart : ∀ offset ∈ limit, patch.span.stop ≤ offset
      · exact .inr ⟨fits, apart⟩
      · obtain ⟨offset, further⟩ := Classical.not_forall.mp apart
        obtain ⟨isLimit, meets⟩ := Classical.not_imp.mp further
        exact .inl ⟨_, .overlap fits isLimit (Nat.not_le.mp meets)⟩
    · exact .inl ⟨_, .splitsCharacter inside fits⟩

theorem defect?_eq_some_iff {error : SpliceError} :
    patch.defect? text limit = some error ↔ Offends text limit patch error := by
  refine ⟨fun defect => ?_, Offends.defect?⟩
  rcases defect?_cases text limit patch with ⟨other, offends⟩ | ⟨fits, apart⟩
  · obtain rfl := Option.some.inj (offends.defect?.symm.trans defect)
    exact offends
  · have free : limit.any (· < patch.span.stop) = false := by
      cases limit with
      | none => rfl
      | some offset => simpa using apart offset rfl
    rw [defect?_fits fits, free] at defect
    simp at defect

theorem defect?_eq_none_iff :
    patch.defect? text limit = none ↔
      patch.Fits text ∧ ∀ offset ∈ limit, patch.span.stop ≤ offset := by
  constructor
  · intro sound
    rcases defect?_cases text limit patch with ⟨error, offends⟩ | fine
    · have defect := offends.defect?
      simp [sound] at defect
    · exact fine
  · rintro ⟨fits, apart⟩
    rw [Option.eq_none_iff_forall_ne_some]
    intro error defect
    cases defect?_eq_some_iff.mp defect with
    | outOfBounds beyond => exact absurd fits.stop_le (Nat.not_le.mpr beyond)
    | splitsCharacter inside cuts => exact cuts fits
    | overlap _ isLimit meets => exact absurd (apart _ isLimit) (Nat.not_le.mpr meets)

end Defect

/-! All patches. -/

/-- What is wrong with the first patch that cannot be applied. -/
def firstDefect? (text : List Char) (limit : Option Nat) : List Patch → Option SpliceError
  | [] => none
  | patch :: rest => (patch.defect? text limit).or (firstDefect? text (some patch.offset) rest)

theorem firstDefect?_eq_none_iff {text : List Char} {limit : Option Nat} {patches : List Patch} :
    firstDefect? text limit patches = none ↔
      Descends text patches ∧ ∀ patch ∈ patches.head?, ∀ offset ∈ limit, patch.span.stop ≤ offset := by
  induction patches generalizing limit with
  | nil => simpa [firstDefect?] using Descends.mk (by simp) .nil
  | cons patch rest ih =>
      rw [firstDefect?, Option.or_eq_none_iff, defect?_eq_none_iff, ih]
      constructor
      · rintro ⟨⟨fits, apart⟩, ⟨others, chain⟩, next⟩
        refine ⟨⟨List.forall_mem_cons.mpr ⟨fits, others⟩, ?_⟩, by simpa using apart⟩
        cases rest with
        | nil => exact .singleton patch
        | cons second rest => exact .cons_cons (next second rfl patch.offset rfl) chain
      · rintro ⟨⟨fits, chain⟩, apart⟩
        obtain ⟨here, others⟩ := List.forall_mem_cons.mp fits
        cases rest with
        | nil => exact ⟨⟨here, apart patch rfl⟩, ⟨others, .nil⟩, by simp⟩
        | cons second rest =>
            obtain ⟨next, chain⟩ := List.isChain_cons_cons.mp chain
            exact ⟨⟨here, apart patch rfl⟩, ⟨others, chain⟩, by simpa using next⟩

theorem firstDefect?_eq_some_iff {text : List Char} {limit : Option Nat} {patches : List Patch}
    {error : SpliceError} :
    firstDefect? text limit patches = some error ↔
      ∃ before patch after, patches = before ++ patch :: after ∧ firstDefect? text limit before = none ∧
        Offends text ((before.getLast?.map (·.offset)).or limit) patch error := by
  induction patches generalizing limit with
  | nil => simp [firstDefect?]
  | cons first rest ih =>
      rw [firstDefect?]
      constructor
      · intro defect
        rcases Option.or_eq_some_iff.mp defect with here | ⟨sound, later⟩
        · exact ⟨[], first, rest, rfl, rfl, defect?_eq_some_iff.mp here⟩
        · obtain ⟨before, patch, after, rfl, isSound, offends⟩ := ih.mp later
          refine ⟨first :: before, patch, after, rfl, ?_, ?_⟩
          · rw [firstDefect?, sound, isSound]
            rfl
          · cases before with
            | nil => exact offends
            | cons second before => simpa [List.getLast?_cons] using offends
      · rintro ⟨before, patch, after, parts, isSound, offends⟩
        cases before with
        | nil =>
            obtain ⟨rfl, rfl⟩ := List.cons.inj parts
            exact Option.or_eq_some_iff.mpr (.inl (defect?_eq_some_iff.mpr offends))
        | cons second before =>
            obtain ⟨rfl, rfl⟩ := List.cons.inj parts
            obtain ⟨sound, isSound⟩ := Option.or_eq_none_iff.mp isSound
            refine Option.or_eq_some_iff.mpr (.inr ⟨sound, ih.mpr ⟨before, patch, after, rfl, isSound, ?_⟩⟩)
            cases before with
            | nil => exact offends
            | cons third before => simpa [List.getLast?_cons] using offends

/-- The part of `text` in front of the patch that was applied last. -/
def IsFront (text : List Char) (limit : Option Nat) (head : List Char) : Prop :=
  ∃ back, text = head ++ back ∧ Text.byteLength head = limit.getD (Text.byteLength text)

/-- What a sound patch replaces lies in what is untouched. -/
theorem IsFront.parts {text head : List Char} {limit : Option Nat} {patch : Patch}
    (front : IsFront text limit head) (sound : patch.defect? text limit = none) :
    ∃ before removed after, head = before ++ (removed ++ after) ∧
      Text.byteLength before = patch.offset ∧ Text.byteLength removed = patch.length := by
  obtain ⟨back, rfl, size⟩ := front
  obtain ⟨fits, apart⟩ := defect?_eq_none_iff.mp sound
  have inside : patch.span.stop ≤ Text.byteLength head := by
    rw [size]
    cases limit with
    | none => exact fits.stop_le
    | some offset => exact apart offset rfl
  have ordered : patch.offset ≤ patch.offset + patch.length := Nat.le_add_right _ _
  obtain ⟨before, removed, after, parts, start, stop⟩ := Text.parts_of_boundaries
    (Text.isBoundary_of_append fits.start (Nat.le_trans ordered inside))
    (Text.isBoundary_of_append fits.stop inside) ordered
  exact ⟨before, removed, after, parts, start, by omega⟩

section Step

variable {text before removed after : List Char} {limit : Option Nat} {patch : Patch}
  (start : Text.byteLength before = patch.offset) (size : Text.byteLength removed = patch.length)

include start in
theorem IsFront.step (front : IsFront text limit (before ++ (removed ++ after))) :
    IsFront text (some patch.offset) before := by
  obtain ⟨back, rfl, -⟩ := front
  exact ⟨removed ++ after ++ back, by simp, start⟩

variable (sound : patch.defect? text limit = none) (tail : List Char) (rest : List Patch)

include start size sound

theorem spliceFrom_step :
    spliceFrom text limit (before ++ (removed ++ after)) tail (patch :: rest) =
      spliceFrom text (some patch.offset) before (patch.text.toList ++ (after ++ tail)) rest := by
  have atStart : Text.splitAt? (before ++ (removed ++ after)) patch.span.start =
      some (before, removed ++ after) := Text.splitAt?_eq_some_iff.mpr ⟨rfl, start⟩
  have atStop : Text.splitAt? (removed ++ after) patch.length = some (removed, after) :=
    Text.splitAt?_eq_some_iff.mpr ⟨rfl, size⟩
  simp only [spliceFrom, sound, atStart, atStop]

theorem replaceFrom_step :
    replaceFrom text limit (before ++ (removed ++ after) ++ tail) (patch :: rest) =
      replaceFrom text (some patch.offset) (before ++ (patch.text.toList ++ (after ++ tail))) rest := by
  have atStart : Text.splitAt? (before ++ (removed ++ after) ++ tail) patch.span.start =
      some (before, removed ++ after ++ tail) :=
    Text.splitAt?_eq_some_iff.mpr ⟨by simp, start⟩
  have length : patch.span.length = patch.length := Nat.add_sub_cancel_left _ _
  have atStop : Text.splitAt? (removed ++ after ++ tail) patch.span.length =
      some (removed, after ++ tail) :=
    Text.splitAt?_eq_some_iff.mpr ⟨by simp, size.trans length.symm⟩
  have replaced : Text.replace? (before ++ (removed ++ after) ++ tail) patch.span patch.text.toList =
      some (before ++ (patch.text.toList ++ (after ++ tail))) := by
    simp only [Text.replace?, atStart, atStop, Option.bind_eq_bind, Option.bind_some, Option.pure_def]
    simp only [List.append_assoc]
  simp only [replaceFrom, sound, replaced, Option.bind_eq_bind, Option.bind_some]

end Step

/-- In the buffer stand the untouched front of the text and what the rest of it has become, so the bytes of
a sound patch can be replaced there. -/
theorem replaceFrom_eq {text head : List Char} {limit : Option Nat} (front : IsFront text limit head)
    (tail : List Char) (patches : List Patch) :
    replaceFrom text limit (head ++ tail) patches =
      some (spliceFrom text limit head tail patches) := by
  induction patches generalizing limit head tail with
  | nil => rfl
  | cons patch rest ih =>
      cases sound : patch.defect? text limit with
      | some error => simp only [replaceFrom, spliceFrom, sound]
      | none =>
          obtain ⟨before, removed, after, rfl, start, size⟩ := front.parts sound
          rw [replaceFrom_step start size sound, spliceFrom_step start size sound]
          exact ih (front.step start) _

theorem spliceFrom_of_firstDefect? {text head : List Char} {limit : Option Nat}
    (front : IsFront text limit head) (tail : List Char) {patches : List Patch} {error : SpliceError}
    (defect : firstDefect? text limit patches = some error) :
    spliceFrom text limit head tail patches = .error error := by
  induction patches generalizing limit head tail with
  | nil => simp [firstDefect?] at defect
  | cons patch rest ih =>
      rcases Option.or_eq_some_iff.mp defect with here | ⟨sound, later⟩
      · simp only [spliceFrom, here]
      · obtain ⟨before, removed, after, rfl, start, size⟩ := front.parts sound
        rw [spliceFrom_step start size sound]
        exact ih (front.step start) _ later

/-- From an offset in the untouched front on, the rest of the front stays. -/
theorem woven_front {text before after : List Char} {done : List Patch}
    (front : IsFront text (done.head?.map (·.offset)) (before ++ after)) :
    woven text (Text.byteLength before) done =
      after ++ woven text (Text.byteLength (before ++ after)) done := by
  obtain ⟨back, parts, bound⟩ := front
  have kept {stop : Nat} (isStop : Text.byteLength (before ++ after) = stop) :
      Text.between text (Text.byteLength before) stop = after := by
    rw [parts, List.append_assoc]
    exact Text.between_of_parts _ rfl (by rw [← isStop, Text.byteLength_append])
  have empty {stop : Nat} (isStop : Text.byteLength (before ++ after) = stop) :
      Text.between text (Text.byteLength (before ++ after)) stop = [] := by
    rw [parts, ← List.nil_append back]
    exact Text.between_of_parts _ rfl isStop
  cases done with
  | nil =>
      have atEnd : Text.byteLength (before ++ after) = Text.byteLength text := bound
      rw [woven, woven, kept atEnd, empty atEnd, List.append_nil]
  | cons next done =>
      have atNext : Text.byteLength (before ++ after) = next.offset := bound
      rw [woven, woven, kept atNext, empty atNext, List.nil_append, List.append_assoc]

theorem woven_step {text before removed after : List Char} {patch : Patch} {done : List Patch}
    (front : IsFront text (done.head?.map (·.offset)) (before ++ (removed ++ after)))
    (start : Text.byteLength before = patch.offset) (size : Text.byteLength removed = patch.length) :
    woven text (Text.byteLength before) (patch :: done) =
      patch.text.toList ++
        (after ++ woven text (Text.byteLength (before ++ (removed ++ after))) done) := by
  have stop : patch.span.stop = Text.byteLength (before ++ removed) := by
    rw [Text.byteLength_append, start, size]
    rfl
  have nothing : Text.between text (Text.byteLength before) patch.offset = [] := by
    obtain ⟨back, rfl, -⟩ := front
    rw [← List.nil_append (removed ++ after), List.append_assoc, List.append_assoc]
    exact Text.between_of_parts _ rfl (by simpa using start)
  rw [← List.append_assoc before] at front ⊢
  rw [woven, nothing, List.nil_append, stop, woven_front front]

theorem spliceFrom_of_sound {text head : List Char} {done patches : List Patch}
    (front : IsFront text (done.head?.map (·.offset)) head)
    (sound : firstDefect? text (done.head?.map (·.offset)) patches = none) :
    spliceFrom text (done.head?.map (·.offset)) head (woven text (Text.byteLength head) done) patches =
      .ok (woven text 0 (patches.reverse ++ done)) := by
  -- `done` are the patches that have been applied, the last one in front.
  induction patches generalizing head done with
  | nil =>
      have whole : woven text 0 done = head ++ woven text (Text.byteLength head) done :=
        @woven_front text [] head done front
      rw [spliceFrom, List.reverse_nil, List.nil_append, whole]
  | cons patch rest ih =>
      obtain ⟨here, later⟩ := Option.or_eq_none_iff.mp sound
      obtain ⟨before, removed, after, rfl, start, size⟩ := front.parts here
      rw [spliceFrom_step start size here, ← woven_step front start size, List.reverse_cons,
        List.append_assoc]
      exact @ih _ (patch :: done) (front.step start) later

/-- The bytes that are replaced are lost, and those of the texts are gained. -/
theorem spliceFrom_length {text head tail rewritten : List Char} {limit : Option Nat}
    {patches : List Patch} (front : IsFront text limit head)
    (result : spliceFrom text limit head tail patches = .ok rewritten) :
    Text.byteLength rewritten + (patches.map (·.length)).sum =
      Text.byteLength head + Text.byteLength tail +
        (patches.map fun patch => Text.byteLength patch.text.toList).sum := by
  induction patches generalizing limit head tail with
  | nil =>
      obtain rfl := Except.ok.inj result
      simp
  | cons patch rest ih =>
      cases sound : patch.defect? text limit with
      | some error => simp [spliceFrom, sound] at result
      | none =>
          obtain ⟨before, removed, after, rfl, start, size⟩ := front.parts sound
          rw [spliceFrom_step start size sound] at result
          have further := ih (front.step start) result
          simp only [Text.byteLength_append, List.map_cons, List.sum_cons] at further ⊢
          omega

theorem isFront_whole (text : List Char) : IsFront text none text :=
  ⟨[], (List.append_nil text).symm, rfl⟩

theorem splice_eq (text : String) (patches : List Patch) :
    splice text patches = match firstDefect? text.toList none (descending patches) with
      | some error => .error error
      | none => .ok (String.ofList (woven text.toList 0 (descending patches).reverse)) := by
  have front := isFront_whole text.toList
  rw [splice, spliceChars]
  cases defect : firstDefect? text.toList none (descending patches) with
  | some error =>
      rw [spliceFrom_of_firstDefect? front [] defect]
      rfl
  | none =>
      have nothing : woven text.toList (Text.byteLength text.toList) [] = [] := by
        have parts := @Text.between_of_parts text.toList [] [] _ _ rfl rfl
        simpa [woven] using parts
      have sound := @spliceFrom_of_sound text.toList text.toList [] _ front defect
      rw [nothing, List.append_nil] at sound
      exact congrArg (·.map String.ofList) sound

theorem firstDefect?_whole {text : List Char} {patches : List Patch} :
    firstDefect? text none patches = none ↔ Descends text patches := by
  simp [firstDefect?_eq_none_iff]

section Whole

variable {text : String} {patches : List Patch}

theorem splice_eq_ok_iff {rewritten : String} :
    splice text patches = .ok rewritten ↔ Descends text.toList (descending patches) ∧
      rewritten = String.ofList (woven text.toList 0 (descending patches).reverse) := by
  rw [splice_eq, ← firstDefect?_whole]
  cases firstDefect? text.toList none (descending patches) with
  | some error => simp
  | none => simp [eq_comm]

theorem splice_eq_error_iff {error : SpliceError} :
    splice text patches = .error error ↔
      ∃ before patch after, descending patches = before ++ patch :: after ∧
        Descends text.toList before ∧
        Offends text.toList (before.getLast?.map (·.offset)) patch error := by
  have offends := @firstDefect?_eq_some_iff text.toList none (descending patches) error
  simp only [Option.or_none, firstDefect?_whole] at offends
  rw [splice_eq, ← offends]
  cases firstDefect? text.toList none (descending patches) with
  | some other => simp
  | none => simp

theorem splice_length {rewritten : String} (result : splice text patches = .ok rewritten) :
    Text.byteLength rewritten.toList + (patches.map (·.length)).sum =
      Text.byteLength text.toList +
        (patches.map fun patch => Text.byteLength patch.text.toList).sum := by
  rw [splice, spliceChars] at result
  cases isResult : spliceFrom text.toList none text.toList [] (descending patches) with
  | error error => simp [isResult, Except.map] at result
  | ok chars =>
      rw [isResult] at result
      obtain rfl := Except.ok.inj result
      have length := spliceFrom_length (isFront_whole text.toList) isResult
      rw [((descending_perm patches).map (·.length)).sum_nat,
        ((descending_perm patches).map fun patch => Text.byteLength patch.text.toList).sum_nat] at length
      simpa using length

theorem replaceAll_eq (text : String) (patches : List Patch) :
    replaceAll text patches = some (splice text patches) := by
  have buffer := replaceFrom_eq (isFront_whole text.toList) [] (descending patches)
  rw [List.append_nil] at buffer
  rw [replaceAll, splice, spliceChars, buffer]
  rfl

theorem splice_congr {others : List Patch} (perm : others.Perm patches)
    (distinct : patches.Pairwise fun left right => left.offset ≠ right.offset) :
    splice text others = splice text patches := by
  rw [splice, splice, spliceChars, spliceChars, descending_congr perm distinct]

end Whole

/-- Taken from the last offset to the first, and those at one offset in the order of the list, patches can be
applied if each lies in the text, cuts no character and ends where the one before it begins or earlier. The
result is then what the patches leave of the text with their texts between, and otherwise the error of the
first patch that offends. No patch is replaced in a buffer where this is not possible. -/
theorem splice_exact (text : String) (patches : List Patch) :
    let order := descending patches
    (order.Perm patches ∧ (order.Pairwise fun first second => second.offset ≤ first.offset) ∧
      ∀ offset, order.filter (·.offset == offset) = patches.filter (·.offset == offset)) ∧
    (∀ rewritten, splice text patches = .ok rewritten ↔
      Descends text.toList order ∧ rewritten = String.ofList (woven text.toList 0 order.reverse)) ∧
    (∀ error, splice text patches = .error error ↔
      ∃ before patch after, order = before ++ patch :: after ∧ Descends text.toList before ∧
        Offends text.toList (before.getLast?.map (·.offset)) patch error) ∧
    (∀ rewritten, splice text patches = .ok rewritten →
      Text.byteLength rewritten.toList + (patches.map (·.length)).sum =
        Text.byteLength text.toList +
          (patches.map fun patch => Text.byteLength patch.text.toList).sum) ∧
    replaceAll text patches = some (splice text patches) ∧
    ∀ others, others.Perm patches →
      (patches.Pairwise fun left right => left.offset ≠ right.offset) →
      splice text others = splice text patches := by
  intro order
  refine ⟨⟨?_, ?_, ?_⟩, ?_, ?_, ?_, ?_, ?_⟩
  · exact descending_perm patches
  · exact descending_sorted patches
  · exact descending_stable patches
  · exact fun rewritten => splice_eq_ok_iff
  · exact fun error => splice_eq_error_iff
  · exact fun rewritten result => splice_length result
  · exact replaceAll_eq text patches
  · exact fun others perm distinct => splice_congr perm distinct

/-- Two patches at the same offset, and two that touch. -/
theorem splice_exact_touching :
    let text := "aéb"
    let patches : List Patch := [⟨3, 0, "X", ""⟩, ⟨0, 1, "", ""⟩, ⟨3, 0, "Y", ""⟩, ⟨1, 2, "ee", ""⟩]
    splice text patches = .ok "eeYXb" ∧ replaceAll text patches = some (.ok "eeYXb") := by
  intro text patches
  obtain ⟨-, ok, -, -, buffer, -⟩ := splice_exact text patches
  have order : descending patches =
      [⟨3, 0, "X", ""⟩, ⟨3, 0, "Y", ""⟩, ⟨1, 2, "ee", ""⟩, ⟨0, 1, "", ""⟩] := by
    cbv
  have sound : firstDefect? text.toList none (descending patches) = none := by
    rw [order]
    decide +kernel
  have woven : String.ofList (woven text.toList 0 (descending patches).reverse) = "eeYXb" := by
    rw [order]
    decide +kernel
  have descends : Descends text.toList (descending patches) := (firstDefect?_eq_none_iff.mp sound).1
  have result := (ok "eeYXb").mpr ⟨descends, woven.symm⟩
  exact ⟨result, buffer.trans (congrArg some result)⟩

end Patch

end Requalify
