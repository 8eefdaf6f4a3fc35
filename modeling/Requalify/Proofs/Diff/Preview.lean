import Requalify.Proofs.Diff.Blocks

/-!
What a diff shows. It replaces from the last patch to the first, and among patches at one offset the later
one in the list first, so that a patch acts on what the patches behind it have left. Texts inserted at one
offset come to stand in the order of the list, and a patch that replaces bytes at this offset replaces what
was inserted there.
-/

namespace Requalify

open Text (byteLength splitAt?)

namespace Text

theorem between_self (text : List Char) (offset : Nat) : between text offset offset = [] := by
  have empty : (Span.between offset offset).length = 0 := by simp [Span.between, Span.length]
  rw [between, slice?, empty]
  cases splitAt? text (Span.between offset offset).start with
  | none => rfl
  | some parts =>
      simp only [Option.bind_eq_bind, Option.bind_some]
      rw [splitAt?]
      cases parts.2 <;> rfl

theorem splitAt?_zero (text : List Char) : splitAt? text 0 = some ([], text) :=
  splitAt?_append [] text

theorem splitAt?_append_left {left : List Char} (right : List Char) {offset : Nat}
    (inside : offset ≤ byteLength left) :
    splitAt? (left ++ right) offset = (splitAt? left offset).map fun (before, after) =>
      (before, after ++ right) := by
  cases split : splitAt? left offset with
  | some parts =>
      obtain ⟨before, after⟩ := parts
      obtain ⟨rfl, size⟩ := splitAt?_eq_some_iff.mp split
      exact splitAt?_eq_some_iff.mpr ⟨by simp, size⟩
  | none =>
      cases whole : splitAt? (left ++ right) offset with
      | none => rfl
      | some parts =>
          have boundary : isBoundary (left ++ right) offset = true := by simp [isBoundary, whole]
          have here := isBoundary_of_append boundary inside
          simp [isBoundary, split] at here

theorem splitAt?_append_right (left right : List Char) (offset : Nat) :
    splitAt? (left ++ right) (byteLength left + offset) = (splitAt? right offset).map
      fun (before, after) => (left ++ before, after) := by
  cases split : splitAt? right offset with
  | some parts =>
      obtain ⟨before, after⟩ := parts
      obtain ⟨rfl, size⟩ := splitAt?_eq_some_iff.mp split
      exact splitAt?_eq_some_iff.mpr ⟨by simp, by rw [byteLength_append, size]⟩
  | none =>
      cases whole : splitAt? (left ++ right) (byteLength left + offset) with
      | none => rfl
      | some parts =>
          obtain ⟨before, after⟩ := parts
          obtain ⟨same, size⟩ := splitAt?_eq_some_iff.mp whole
          rcases List.append_eq_append_iff.mp same with ⟨more, rfl, rest⟩ | ⟨more, rfl, rfl⟩
          · rw [byteLength_append] at size
            have here := splitAt?_eq_some_iff.mpr ⟨rest, Nat.add_left_cancel size⟩
            simp [split] at here
          · rw [byteLength_append] at size
            have empty : offset = 0 := by omega
            rw [empty, splitAt?_zero] at split
            simp at split

theorem exists_split {text front part back : List Char} {offset : Nat}
    (whole : text = front ++ (part ++ back)) (boundary : isBoundary text offset = true)
    (from_ : byteLength front ≤ offset) (upTo : offset ≤ byteLength front + byteLength part) :
    ∃ kept rest, part = kept ++ rest ∧ byteLength front + byteLength kept = offset := by
  have inside : isBoundary (part ++ back) (offset - byteLength front) = true := by
    have parts := splitAt?_append_right front (part ++ back) (offset - byteLength front)
    rw [Nat.add_sub_cancel' from_] at parts
    rw [whole, isBoundary, parts, Option.isSome_map] at boundary
    exact boundary
  obtain ⟨kept, rest, parts, size⟩ := isBoundary_iff.mp (isBoundary_of_append inside (by omega))
  exact ⟨kept, rest, parts, by omega⟩

theorem exists_parts {text front rest : List Char} {start stop : Nat} (whole : text = front ++ rest)
    (first : isBoundary text start = true) (last : isBoundary text stop = true)
    (from_ : byteLength front ≤ start) (ordered : start ≤ stop) :
    ∃ kept covered back, rest = kept ++ (covered ++ back) ∧ byteLength front + byteLength kept = start ∧
      start + byteLength covered = stop := by
  have inside := isBoundary_le last
  rw [whole, byteLength_append] at inside
  have whole : text = front ++ (rest ++ []) := by rw [whole, List.append_nil]
  obtain ⟨kept, rest, rfl, size⟩ := exists_split whole first from_ (by omega)
  have whole : text = (front ++ kept) ++ (rest ++ []) := by simp [whole]
  rw [byteLength_append] at inside
  obtain ⟨covered, back, rfl, width⟩ := exists_split whole last (by rw [byteLength_append]; omega)
    (by rw [byteLength_append]; omega)
  rw [byteLength_append] at width
  exact ⟨kept, covered, back, rfl, size, by omega⟩

end Text

namespace LineDiff

/-- What the patches make of `rest`, which begins at offset `start`, if the later ones are applied first. -/
def preview? (rest : List Char) (start : Nat) : List Patch → Option (List Char)
  | [] => some rest
  | patch :: patches => do
      let (kept, rest) ← splitAt? rest (patch.offset - start)
      let shown ← preview? rest patch.offset patches
      let (_, after) ← splitAt? shown patch.length
      return kept ++ patch.text.toList ++ after

def texts (patches : List Patch) : List Char :=
  patches.flatMap (·.text.toList)

theorem preview?_cons {kept rest : List Char} {start : Nat} {patch : Patch}
    (place : start + byteLength kept = patch.offset) (patches : List Patch) :
    preview? (kept ++ rest) start (patch :: patches) = (do
      let shown ← preview? rest patch.offset patches
      let (_, after) ← splitAt? shown patch.length
      return kept ++ patch.text.toList ++ after) := by
  have split : splitAt? (kept ++ rest) (patch.offset - start) = some (kept, rest) :=
    Text.splitAt?_eq_some_iff.mpr ⟨rfl, by omega⟩
  simp only [preview?, split, Option.bind_eq_bind, Option.bind_some]

/-- What stands in front of all patches stays. -/
theorem preview?_front {front rest : List Char} {start : Nat} {patches : List Patch}
    (behind : ∀ patch ∈ patches.head?, start + byteLength front ≤ patch.offset) :
    preview? (front ++ rest) start patches =
      (preview? rest (start + byteLength front) patches).map (front ++ ·) := by
  cases patches with
  | nil => rfl
  | cons patch patches =>
      have beyond : start + byteLength front ≤ patch.offset := behind patch rfl
      have parts : patch.offset - start =
          byteLength front + (patch.offset - (start + byteLength front)) := by omega
      simp only [preview?, parts, Text.splitAt?_append_right]
      cases splitAt? rest (patch.offset - (start + byteLength front)) with
      | none => rfl
      | some split =>
          obtain ⟨kept, rest⟩ := split
          simp only [Option.map_some, Option.bind_eq_bind, Option.bind_some]
          cases preview? rest patch.offset patches with
          | none => rfl
          | some shown =>
              simp only [Option.bind_some]
              cases splitAt? shown patch.length with
              | none => rfl
              | some split => simp

theorem preview?_inserted {rest : List Char} {start : Nat} {inserted : List Patch}
    (here : ∀ patch ∈ inserted, patch.offset = start)
    (nothing : ∀ patch ∈ inserted, patch.length = 0) (patches : List Patch) :
    preview? rest start (inserted ++ patches) =
      (preview? rest start patches).map (texts inserted ++ ·) := by
  induction inserted with
  | nil => simp [texts]
  | cons patch others ih =>
      obtain ⟨first, here⟩ := List.forall_mem_cons.mp here
      obtain ⟨empty, nothing⟩ := List.forall_mem_cons.mp nothing
      have further := @preview?_cons [] rest start patch (by simp [first]) (others ++ patches)
      rw [List.nil_append] at further
      rw [List.cons_append, further, first, ih here nothing, empty]
      cases preview? rest start patches with
      | none => rfl
      | some shown => simp [Text.splitAt?_zero, texts]

/-- A patch either ends where a later one begins or before it, or the later one is inserted at its offset. -/
def Follows (patch later : Patch) : Prop :=
  patch.offset ≤ later.offset ∧
    (patch.span.stop ≤ later.offset ∨ patch.offset = later.offset ∧ later.length = 0)

/-- What stands in front of an offset is not used up by insertions in front of it. -/
theorem le_preview? {rest shown : List Char} {start bound : Nat} {patches : List Patch}
    (result : preview? rest start patches = some shown) (from_ : start ≤ bound)
    (upTo : bound ≤ start + byteLength rest)
    (sorted : patches.Pairwise fun first second => first.offset ≤ second.offset)
    (later : ∀ patch ∈ patches, start ≤ patch.offset)
    (inserted : ∀ patch ∈ patches, bound ≤ patch.offset ∨ patch.length = 0) :
    bound ≤ start + byteLength shown := by
  induction patches generalizing rest shown start with
  | nil =>
      obtain rfl := Option.some.inj result
      exact upTo
  | cons patch patches ih =>
      obtain ⟨here, -⟩ := List.forall_mem_cons.mp later
      obtain ⟨first, others⟩ := List.forall_mem_cons.mp inserted
      obtain ⟨below, sorted⟩ := List.pairwise_cons.mp sorted
      simp only [preview?, Option.bind_eq_bind, Option.bind_eq_some_iff] at result
      obtain ⟨⟨kept, rest'⟩, split, shown', inner, ⟨covered, after⟩, taken, same⟩ := result
      obtain rfl := Option.some.inj same
      obtain ⟨rfl, size⟩ := Text.splitAt?_eq_some_iff.mp split
      obtain ⟨rfl, width⟩ := Text.splitAt?_eq_some_iff.mp taken
      simp only [Text.byteLength_append] at upTo ⊢
      rcases first with beyond | empty
      · omega
      · by_cases beyond : bound ≤ patch.offset
        · omega
        · have reach : bound ≤ patch.offset + byteLength rest' := by omega
          have further := ih inner (by omega) reach sorted below others
          rw [Text.byteLength_append] at further
          omega

theorem preview?_append {text front rest : List Char} (back : List Char) {start : Nat}
    {patches : List Patch} (others : List Patch) (whole : text = front ++ (rest ++ back))
    (size : byteLength front = start) (fits : ∀ patch ∈ patches, patch.Fits text)
    (later : ∀ patch ∈ patches, start ≤ patch.offset)
    (inside : ∀ patch ∈ patches, patch.span.stop ≤ start + byteLength rest)
    (follows : patches.Pairwise Follows)
    (behind : ∀ patch ∈ others, start + byteLength rest ≤ patch.offset) :
    preview? (rest ++ back) start (patches ++ others) = (do
      let shown ← preview? rest start patches
      let after ← preview? back (start + byteLength rest) others
      return shown ++ after) := by
  induction patches generalizing front rest start with
  | nil =>
      rw [List.nil_append, preview?_front fun patch member => behind patch (List.mem_of_mem_head? member)]
      cases preview? back (start + byteLength rest) others <;> rfl
  | cons patch patches ih =>
      obtain ⟨fitsFirst, fits⟩ := List.forall_mem_cons.mp fits
      obtain ⟨here, -⟩ := List.forall_mem_cons.mp later
      obtain ⟨insideFirst, inside⟩ := List.forall_mem_cons.mp inside
      obtain ⟨below, follows⟩ := List.pairwise_cons.mp follows
      have span : patch.span.stop = patch.offset + patch.length := rfl
      obtain ⟨kept, rest, rfl, place⟩ := Text.exists_split whole fitsFirst.start (by omega) (by omega)
      rw [size] at place
      rw [Text.byteLength_append] at inside insideFirst behind
      have reach : start + (byteLength kept + byteLength rest) = patch.offset + byteLength rest := by
        omega
      rw [reach] at inside insideFirst behind
      have further := @ih (front ++ kept) rest patch.offset (by simp [whole])
        (by rw [Text.byteLength_append]; omega) fits (fun later member => (below later member).1)
        inside follows behind
      rw [List.append_assoc, List.cons_append, preview?_cons place, further, preview?_cons place,
        Text.byteLength_append, reach]
      cases result : preview? rest patch.offset patches with
      | none => rfl
      | some shown =>
          -- What the first patch replaces lies in what the others leave of the first part.
          have enough : patch.span.stop ≤ patch.offset + byteLength shown :=
            le_preview? result (Nat.le_add_right _ _) (by omega) (follows.imp And.left)
              (fun later member => (below later member).1)
              (fun later member => (below later member).2.imp id And.right)
          cases preview? back (patch.offset + byteLength rest) others with
          | none => cases splitAt? shown patch.length <;> simp
          | some after =>
              simp only [Option.bind_eq_bind, Option.bind_some, Option.pure_def]
              rw [Text.splitAt?_append_left after (by omega)]
              cases splitAt? shown patch.length with
              | none => rfl
              | some parts => simp

end LineDiff

end Requalify
