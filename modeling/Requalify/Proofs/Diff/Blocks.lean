import Requalify.Proofs.Diff.Lines
import Requalify.Proofs.Patch.Woven

/-!
The blocks of a diff. Each block begins where a line begins and stops where a line stops, the patches that
touch it lie in it, and no block reaches into the next one. All blocks together hold the patches in order of
offset.
-/

namespace Requalify

open Text (byteLength encoded)

namespace Patch

/-- From the first offset to the last; patches at one offset keep their order. -/
def ascending (patches : List Patch) : List Patch :=
  patches.mergeSort fun left right => left.offset ≤ right.offset

theorem ascending_perm (patches : List Patch) : (ascending patches).Perm patches :=
  List.mergeSort_perm _ _

theorem ascending_sorted (patches : List Patch) :
    (ascending patches).Pairwise fun first second => first.offset ≤ second.offset := by
  have sorted : (ascending patches).Pairwise fun first second =>
      decide (first.offset ≤ second.offset) = true := by
    refine List.pairwise_mergeSort ?_ ?_ patches
    · intro first second third left right
      exact comesFirst_trans third second first right left
    · intro left right
      exact comesFirst_total right left
  exact sorted.imp of_decide_eq_true

end Patch

namespace LineDiff

/-- A line begins at the offset, if only one that is empty. -/
def StartsLine (text : List Char) (offset : Nat) : Prop :=
  ∃ front back, text = front ++ back ∧ byteLength front = offset ∧ endsOpen front = false

/-- The text up to the offset consists of whole lines. -/
def StopsLine (text : List Char) (offset : Nat) : Prop :=
  ∃ front back, text = front ++ back ∧ byteLength front = offset ∧ (endsOpen front = false ∨ back = [])

theorem StartsLine.boundary {text : List Char} {offset : Nat} (starts : StartsLine text offset) :
    Text.isBoundary text offset = true := by
  obtain ⟨front, back, parts, size, -⟩ := starts
  exact Text.isBoundary_iff.mpr ⟨front, back, parts, size⟩

theorem StopsLine.boundary {text : List Char} {offset : Nat} (stops : StopsLine text offset) :
    Text.isBoundary text offset = true := by
  obtain ⟨front, back, parts, size, -⟩ := stops
  exact Text.isBoundary_iff.mpr ⟨front, back, parts, size⟩

theorem StartsLine.outside {front line rest : List Char} {offset : Nat}
    (starts : StartsLine (front ++ line ++ rest) offset) (inside : '\n' ∉ line.dropLast)
    (beyond : byteLength front < offset) : byteLength (front ++ line) ≤ offset := by
  by_contra short
  rw [Nat.not_le] at short
  obtain ⟨before, after, parts, rfl, closed⟩ := starts
  obtain ⟨c, more, rfl, rest'⟩ := Text.append_of_length_lt (List.append_assoc front line rest ▸ parts)
    beyond
  have longer : byteLength (c :: more) < byteLength line := by
    simp only [Text.byteLength_append] at short
    omega
  have same : line ++ rest = (c :: more) ++ after := by simpa using rest'
  obtain ⟨d, others, rfl, -⟩ := Text.append_of_length_lt same.symm longer
  rw [endsOpen_append front (by simp)] at closed
  obtain ⟨body, last, whole⟩ := List.eq_nil_or_concat (c :: more) |>.resolve_left (by simp)
  rw [List.concat_eq_append] at whole
  rw [whole, endsOpen_concat, bne_eq_false_iff_eq] at closed
  rw [whole, closed, List.append_assoc, List.dropLast_append_of_ne_nil (by simp)] at inside
  exact inside (by simp)

section Lines

variable {text : List Char} {offset : Nat}

theorem lineStart_spec (boundary : Text.isBoundary text offset = true) :
    StartsLine text (Text.lineStart (encoded text) offset) ∧
      Text.lineStart (encoded text) offset ≤ offset ∧
      ∀ place, StartsLine text place → place ≤ offset →
        place ≤ Text.lineStart (encoded text) offset := by
  obtain ⟨before, back, rfl, rfl⟩ := Text.isBoundary_iff.mp boundary
  obtain ⟨front, line, rfl, closed, inside⟩ := exists_lineBefore before
  rw [lineStart_encoded closed inside back]
  refine ⟨⟨front, line ++ back, by simp, rfl, closed⟩, by simp, fun place starts upTo => ?_⟩
  by_contra further
  rw [Nat.not_le] at further
  have free : '\n' ∉ line.dropLast := fun member => inside (List.dropLast_subset line member)
  have atEnd : place = byteLength (front ++ line) := Nat.le_antisymm upTo (starts.outside free further)
  obtain ⟨before, after, parts, size, isClosed⟩ := starts
  obtain ⟨rfl, rfl⟩ := Text.append_inj parts.symm (size.trans atEnd)
  have filled : line ≠ [] := by
    rintro rfl
    simp [atEnd] at further
  rw [endsOpen_append front filled] at isClosed
  obtain ⟨body, last, rfl⟩ := List.eq_nil_or_concat line |>.resolve_left filled
  rw [List.concat_eq_append] at inside isClosed
  rw [endsOpen_concat, bne_eq_false_iff_eq] at isClosed
  exact inside (by simp [isClosed])

theorem lineEnd_spec {front : List Char} {c : Char} {back : List Char} (parts : text = front ++ c :: back)
    (from_ : byteLength front ≤ offset) (upTo : offset < byteLength front + c.utf8Size) :
    StopsLine text (Text.lineEnd (encoded text) offset) ∧
      byteLength front + c.utf8Size ≤ Text.lineEnd (encoded text) offset ∧
      ∀ place, StartsLine text place → byteLength front < place →
        Text.lineEnd (encoded text) offset ≤ place := by
  -- The line that begins at the character; the offset may lie inside the character.
  obtain ⟨line, rest, whole, filled, inside, ends⟩ := exists_line (List.cons_ne_nil c back)
  obtain ⟨more, rfl⟩ : ∃ more, line = c :: more := by
    cases line with
    | nil => exact absurd rfl filled
    | cons d more =>
        obtain ⟨rfl, -⟩ := List.cons.inj whole
        exact ⟨more, rfl⟩
  have size : byteLength (front ++ c :: more) = byteLength front + c.utf8Size + byteLength more := by
    rw [Text.byteLength_append, Text.byteLength_cons]
    omega
  have text_ : text = front ++ (c :: more) ++ rest := by rw [parts, whole, List.append_assoc]
  subst text_
  rw [lineEnd_encoded filled inside ends from_ (by omega)]
  refine ⟨⟨front ++ c :: more, rest, rfl, rfl, ?_⟩, by omega, ?_⟩
  · rcases ends with closed | atEnd
    · exact .inl ((endsOpen_append front filled).trans closed)
    · exact .inr atEnd
  · exact fun place starts beyond => starts.outside inside beyond

end Lines

/-! The block of one patch. -/

section Patch

variable {text : List Char} {patch : Patch} (fits : patch.Fits text)

include fits

theorem blockOf_fits : blockOf (encoded text) patch =
    { start := Text.lineStart (encoded text) patch.offset
      stop := if 0 < patch.length then Text.lineEnd (encoded text) (patch.offset + patch.length - 1)
        else if patch.offset < byteLength text then Text.lineEnd (encoded text) patch.offset
        else byteLength text
      patches := [patch] } := by
  have clamped : min patch.offset (byteLength text) = patch.offset :=
    Nat.min_eq_left (Text.isBoundary_le fits.start)
  by_cases replaces : 0 < patch.length
  · simp [blockOf, clamped, replaces]
  · simp [blockOf, clamped, replaces]

theorem blockOf_start_spec :
    StartsLine text (blockOf (encoded text) patch).start ∧
      (blockOf (encoded text) patch).start ≤ patch.offset ∧
      ∀ place, StartsLine text place → place ≤ patch.offset →
        place ≤ (blockOf (encoded text) patch).start := by
  rw [blockOf_fits fits]
  exact lineStart_spec fits.start

theorem blockOf_stop_spec :
    StopsLine text (blockOf (encoded text) patch).stop ∧
      patch.span.stop ≤ (blockOf (encoded text) patch).stop ∧
      ∀ place, StartsLine text place → patch.offset < place → patch.span.stop ≤ place →
        (blockOf (encoded text) patch).stop ≤ place := by
  rw [blockOf_fits fits]
  dsimp only
  have span : patch.span.stop = patch.offset + patch.length := rfl
  by_cases replaces : 0 < patch.length
  · -- The last byte that is replaced belongs to a character that ends where the patch does.
    obtain ⟨front, back, parts, size⟩ := Text.isBoundary_iff.mp fits.stop
    have filled : front ≠ [] := by
      rintro rfl
      simp at size
      omega
    obtain ⟨front, c, rfl⟩ := List.eq_nil_or_concat front |>.resolve_left filled
    rw [List.concat_eq_append] at parts size
    rw [Text.byteLength_append, Text.byteLength_cons, Text.byteLength_nil] at size
    have positive := c.utf8Size_pos
    have last : patch.offset + patch.length - 1 < byteLength front + c.utf8Size := by omega
    obtain ⟨stops, reaches, least⟩ := lineEnd_spec (by simpa using parts) (by omega) last
    rw [if_pos replaces]
    exact ⟨stops, by omega, fun place starts _ beyond => least place starts (by omega)⟩
  · rw [if_neg replaces]
    obtain ⟨front, back, parts, size⟩ := Text.isBoundary_iff.mp fits.start
    cases back with
    | nil =>
        rw [List.append_nil] at parts
        subst parts
        rw [if_neg (by omega)]
        exact ⟨⟨text, [], by simp, rfl, .inr rfl⟩, by omega, fun place _ beyond _ => by omega⟩
    | cons c back =>
        have positive := c.utf8Size_pos
        have here : patch.offset < byteLength text := by
          rw [parts, Text.byteLength_append, Text.byteLength_cons]
          omega
        have first : patch.offset < byteLength front + c.utf8Size := by omega
        obtain ⟨stops, reaches, least⟩ := lineEnd_spec parts (by omega) first
        rw [if_pos here]
        exact ⟨stops, by omega, fun place starts beyond _ => least place starts (by omega)⟩

end Patch

/-! All blocks. -/

theorem StopsLine.max {text : List Char} {left right : Nat} (first : StopsLine text left)
    (second : StopsLine text right) : StopsLine text (max left right) := by
  rcases Nat.le_total left right with below | above
  · rwa [Nat.max_eq_right below]
  · rwa [Nat.max_eq_left above]

structure Block.Sound (text : List Char) (block : Block) : Prop where
  start : StartsLine text block.start
  stop : StopsLine text block.stop
  filled : block.patches ≠ []
  fits : ∀ patch ∈ block.patches, patch.Fits text
  inside : ∀ patch ∈ block.patches, block.start ≤ patch.offset ∧
    (blockOf (encoded text) patch).stop ≤ block.stop
  /-- The block stops at the next line, once all its patches have stopped. -/
  least : ∀ place, StartsLine text place →
    (∀ patch ∈ block.patches, patch.offset < place ∧ patch.span.stop ≤ place) → block.stop ≤ place
  /-- Where a line begins between patches of the block, one of them goes on into that line. -/
  joined : ∀ place, StartsLine text place → (∃ patch ∈ block.patches, patch.offset < place) →
    (∃ patch ∈ block.patches, place ≤ patch.offset) →
      ∃ patch ∈ block.patches, patch.offset < place ∧ place < patch.span.stop

theorem Block.Sound.stop_le {text : List Char} {block : Block} (sound : block.Sound text) {patch : Patch}
    (member : patch ∈ block.patches) : patch.span.stop ≤ block.stop :=
  Nat.le_trans (blockOf_stop_spec (sound.fits patch member)).2.1 (sound.inside patch member).2

theorem Block.Sound.start_le_stop {text : List Char} {block : Block} (sound : block.Sound text) :
    block.start ≤ block.stop := by
  obtain ⟨patch, more, parts⟩ := List.exists_cons_of_ne_nil sound.filled
  have member : patch ∈ block.patches := by simp [parts]
  have after := (sound.inside patch member).1
  have before := sound.stop_le member
  have ordered : patch.offset ≤ patch.span.stop := Nat.le_add_right _ _
  omega

theorem fits_of_sound {text : List Char} {blocks : List Block} (sound : ∀ block ∈ blocks, block.Sound text) :
    ∀ patch ∈ blocks.flatMap (·.patches), patch.Fits text := by
  intro patch member
  obtain ⟨block, isBlock, inBlock⟩ := List.mem_flatMap.mp member
  exact (sound block isBlock).fits patch inBlock

theorem le_offset_of_sound {text : List Char} {blocks : List Block} {place : Nat}
    (sound : ∀ block ∈ blocks, block.Sound text) (behind : ∀ block ∈ blocks, place ≤ block.start) :
    ∀ patch ∈ blocks.flatMap (·.patches), place ≤ patch.offset := by
  intro patch member
  obtain ⟨block, isBlock, inBlock⟩ := List.mem_flatMap.mp member
  exact Nat.le_trans (behind block isBlock) ((sound block isBlock).inside patch inBlock).1

/-- What is known of the blocks of the patches taken so far; the nearest block comes first. -/
structure Gathered (text : List Char) (patches : List Patch) (blocks : List Block) : Prop where
  sound : ∀ block ∈ blocks, block.Sound text
  apart : blocks.Pairwise fun later earlier => earlier.stop ≤ later.start
  whole : blocks.reverse.flatMap (·.patches) = patches

theorem blockOf_sound {text : List Char} {patch : Patch} (fits : patch.Fits text) :
    (blockOf (encoded text) patch).Sound text := by
  obtain ⟨starts, startLe, -⟩ := blockOf_start_spec fits
  obtain ⟨stops, -, least⟩ := blockOf_stop_spec fits
  have patches : (blockOf (encoded text) patch).patches = [patch] := rfl
  refine ⟨starts, stops, by simp [patches], by simpa [patches] using fits, ?_, ?_, ?_⟩
  · simpa [patches] using startLe
  · intro place begins all
    obtain ⟨beyond, behind⟩ := all patch (by simp [patches])
    exact least place begins beyond behind
  · rintro place begins ⟨first, inFirst, below⟩ ⟨second, inSecond, above⟩
    rw [patches, List.mem_singleton] at inFirst inSecond
    subst inFirst inSecond
    omega

theorem Block.Sound.join {text : List Char} {block : Block} {patch : Patch} (sound : block.Sound text)
    (fits : patch.Fits text) (later : ∀ earlier ∈ block.patches, earlier.offset ≤ patch.offset)
    (shared : (blockOf (encoded text) patch).start < block.stop) :
    Block.Sound text ⟨block.start, max block.stop (blockOf (encoded text) patch).stop,
      block.patches ++ [patch]⟩ := by
  obtain ⟨-, -, further⟩ := blockOf_start_spec fits
  obtain ⟨stops, -, least⟩ := blockOf_stop_spec fits
  obtain ⟨first, more, parts⟩ := List.exists_cons_of_ne_nil sound.filled
  have isFirst : first ∈ block.patches := by simp [parts]
  refine ⟨sound.start, sound.stop.max stops, by simp, ?_, ?_, ?_, ?_⟩
  · intro inner member
    rcases List.mem_append.mp member with old | new
    · exact sound.fits inner old
    · rw [List.mem_singleton] at new
      exact new ▸ fits
  · intro inner member
    rcases List.mem_append.mp member with old | new
    · obtain ⟨after, before⟩ := sound.inside inner old
      exact ⟨after, Nat.le_trans before (Nat.le_max_left _ _)⟩
    · rw [List.mem_singleton] at new
      subst new
      exact ⟨Nat.le_trans (sound.inside first isFirst).1 (later first isFirst), Nat.le_max_right _ _⟩
  · intro place begins all
    obtain ⟨beyond, behind⟩ := all patch (by simp)
    exact Nat.max_le.mpr ⟨sound.least place begins fun inner member => all inner (by simp [member]),
      least place begins beyond behind⟩
  · rintro place begins ⟨left, inLeft, below⟩ ⟨right, inRight, above⟩
    have earlier : ∃ inner ∈ block.patches, inner.offset < place := by
      rcases List.mem_append.mp inLeft with old | new
      · exact ⟨left, old, below⟩
      · rw [List.mem_singleton] at new
        subst new
        exact ⟨first, isFirst, Nat.lt_of_le_of_lt (later first isFirst) below⟩
    by_cases inside : ∃ inner ∈ block.patches, place ≤ inner.offset
    · obtain ⟨inner, member, spans⟩ := sound.joined place begins earlier inside
      exact ⟨inner, by simp [member], spans⟩
    · -- All earlier patches begin in front of the line, so one of them reaches into it.
      have before : ∀ inner ∈ block.patches, inner.offset < place := fun inner member => by
        by_contra beyond
        exact inside ⟨inner, member, Nat.not_lt.mp beyond⟩
      have isLast : place ≤ patch.offset := by
        rcases List.mem_append.mp inRight with old | new
        · exact absurd ⟨right, old, above⟩ inside
        · rw [List.mem_singleton] at new
          exact new ▸ above
      by_contra none_
      have all : ∀ inner ∈ block.patches, inner.offset < place ∧ inner.span.stop ≤ place := by
        intro inner member
        refine ⟨before inner member, ?_⟩
        by_contra spans
        exact none_ ⟨inner, by simp [member], before inner member, Nat.not_le.mp spans⟩
      have stop := sound.least place begins all
      have start := further place begins isLast
      omega

theorem addBlock_gathered {text : List Char} {taken : List Patch} {blocks : List Block} {patch : Patch}
    (gathered : Gathered text taken blocks) (fits : patch.Fits text)
    (later : ∀ earlier ∈ taken, earlier.offset ≤ patch.offset) :
    Gathered text (taken ++ [patch]) (addBlock blocks (blockOf (encoded text) patch)) := by
  have single := blockOf_sound fits
  have patches : (blockOf (encoded text) patch).patches = [patch] := rfl
  cases blocks with
  | nil =>
      obtain rfl : taken = [] := gathered.whole.symm
      exact ⟨by simpa [addBlock] using single, by simp [addBlock], by simp [addBlock, patches]⟩
  | cons previous rest =>
      obtain ⟨sound, others⟩ := List.forall_mem_cons.mp gathered.sound
      obtain ⟨below, apart⟩ := List.pairwise_cons.mp gathered.apart
      have whole := gathered.whole
      rw [List.reverse_cons, List.flatMap_append, List.flatMap_singleton] at whole
      by_cases shared : (blockOf (encoded text) patch).start < previous.stop
      · rw [addBlock, if_pos shared, patches]
        have before : ∀ earlier ∈ previous.patches, earlier.offset ≤ patch.offset :=
          fun earlier member => later earlier (by simp [← whole, member])
        exact ⟨List.forall_mem_cons.mpr ⟨sound.join fits before shared, others⟩,
          List.pairwise_cons.mpr ⟨below, apart⟩, by simp [← whole]⟩
      · rw [addBlock, if_neg shared]
        rw [Nat.not_lt] at shared
        refine ⟨List.forall_mem_cons.mpr ⟨single, gathered.sound⟩,
          List.pairwise_cons.mpr ⟨List.forall_mem_cons.mpr ⟨shared, ?_⟩, gathered.apart⟩, ?_⟩
        · intro earlier member
          exact Nat.le_trans (below earlier member) (Nat.le_trans sound.start_le_stop shared)
        · simp [← whole, patches]

theorem foldl_gathered {text : List Char} {taken patches : List Patch} {blocks : List Block}
    (gathered : Gathered text taken blocks) (fits : ∀ patch ∈ patches, patch.Fits text)
    (sorted : (taken ++ patches).Pairwise fun first second => first.offset ≤ second.offset) :
    Gathered text (taken ++ patches)
      ((patches.map (blockOf (encoded text))).foldl addBlock blocks) := by
  induction patches generalizing taken blocks with
  | nil => simpa using gathered
  | cons patch rest ih =>
      obtain ⟨here, others⟩ := List.forall_mem_cons.mp fits
      have later : ∀ earlier ∈ taken, earlier.offset ≤ patch.offset := fun earlier member =>
        (List.pairwise_append.mp sorted).2.2 earlier member patch (by simp)
      have further := ih (addBlock_gathered gathered here later) others (by simpa using sorted)
      simpa using further

theorem blocks_eq (text : List Char) (patches : List Patch) :
    blocks (encoded text) patches =
      (((Patch.ascending patches).map (blockOf (encoded text))).foldl addBlock []).reverse := rfl

structure Divides (text : List Char) (patches : List Patch) (blocks : List Block) : Prop where
  sound : ∀ block ∈ blocks, block.Sound text
  apart : blocks.Pairwise fun earlier later => earlier.stop ≤ later.start
  whole : blocks.flatMap (·.patches) = patches

theorem blocks_divide {text : List Char} {patches : List Patch}
    (fits : ∀ patch ∈ patches, patch.Fits text) :
    Divides text (Patch.ascending patches) (blocks (encoded text) patches) := by
  have fits' : ∀ patch ∈ Patch.ascending patches, patch.Fits text := fun patch member =>
    fits patch ((Patch.ascending_perm patches).mem_iff.mp member)
  have start : Gathered text [] [] := ⟨by simp, .nil, rfl⟩
  obtain ⟨sound, apart, whole⟩ := foldl_gathered start fits' (Patch.ascending_sorted patches)
  rw [blocks_eq]
  exact ⟨fun block member => sound block (List.mem_reverse.mp member), List.pairwise_reverse.mpr apart,
    whole⟩

end LineDiff

end Requalify
