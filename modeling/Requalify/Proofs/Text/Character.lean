import Requalify.Text.Offset

/-!
Characters at their offsets, and the offsets that fall between characters. A boundary is where a first
part of the text ends.
-/

namespace Requalify.Text

theorem dropWhile_eq_drop (keeps : Char → Bool) (text : List Char) :
    text.dropWhile keeps = text.drop (text.takeWhile keeps).length := by
  have parts : text.takeWhile keeps ++ text.dropWhile keeps = text :=
    List.takeWhile_append_dropWhile
  calc
    text.dropWhile keeps =
        (text.takeWhile keeps ++ text.dropWhile keeps).drop (text.takeWhile keeps).length :=
      List.drop_left.symm
    _ = text.drop (text.takeWhile keeps).length := by rw [parts]

theorem isBoundary_iff {text : List Char} {offset : Nat} :
    isBoundary text offset = true ↔
      ∃ before after, text = before ++ after ∧ byteLength before = offset := by
  simp only [isBoundary, Option.isSome_iff_exists, Prod.exists, splitAt?_eq_some_iff]

theorem isBoundary_length (before after : List Char) :
    isBoundary (before ++ after) (byteLength before) = true :=
  isBoundary_iff.mpr ⟨before, after, rfl, rfl⟩

theorem isBoundary_le {text : List Char} {offset : Nat} (boundary : isBoundary text offset = true) :
    offset ≤ byteLength text := by
  obtain ⟨before, after, rfl, rfl⟩ := isBoundary_iff.mp boundary
  simp

theorem append_inj {before after before' after' : List Char}
    (same : before ++ after = before' ++ after') (length : byteLength before = byteLength before') :
    before = before' ∧ after = after' := by
  have split := splitAt?_append before after
  rw [same, length, splitAt?_append] at split
  obtain ⟨rfl, rfl⟩ := Prod.mk.inj (Option.some.inj split)
  exact ⟨rfl, rfl⟩

/-- The character that begins at an offset. -/
def At (text : List Char) (offset : Nat) (c : Char) : Prop :=
  ∃ before after, text = before ++ c :: after ∧ byteLength before = offset

theorem At.unique {text : List Char} {offset : Nat} {c d : Char} (left : At text offset c)
    (right : At text offset d) : c = d := by
  obtain ⟨before, after, parts, length⟩ := left
  obtain ⟨before', after', parts', length'⟩ := right
  exact (List.cons.inj (append_inj (parts.symm.trans parts') (length.trans length'.symm)).2).1

theorem At.isBoundary {text : List Char} {offset : Nat} {c : Char} (here : At text offset c) :
    isBoundary text offset = true := by
  obtain ⟨before, after, parts, length⟩ := here
  exact isBoundary_iff.mpr ⟨before, c :: after, parts, length⟩

/-- Of two parts at the beginning of a text the shorter one begins the longer one. -/
theorem append_of_length_lt {before after before' after' : List Char}
    (same : before ++ after = before' ++ after') (shorter : byteLength before < byteLength before') :
    ∃ c more, before' = before ++ c :: more ∧ after = c :: (more ++ after') := by
  rcases List.append_eq_append_iff.mp same with ⟨more, longer, rest⟩ | ⟨more, longer, rest⟩
  · cases more with
    | nil => simp [longer] at shorter
    | cons c more => exact ⟨c, more, longer, by simpa using rest⟩
  · rw [longer, byteLength_append] at shorter
    omega

theorem isBoundary_of_append {front back : List Char} {offset : Nat}
    (boundary : isBoundary (front ++ back) offset = true) (inside : offset ≤ byteLength front) :
    isBoundary front offset = true := by
  obtain ⟨before, after, parts, rfl⟩ := isBoundary_iff.mp boundary
  rcases List.append_eq_append_iff.mp parts with ⟨more, rfl, -⟩ | ⟨more, rfl, -⟩
  · cases more with
    | nil => exact isBoundary_iff.mpr ⟨front, [], by simp, by simp⟩
    | cons c more =>
        have positive := c.utf8Size_pos
        simp only [byteLength_append, byteLength_cons] at inside
        omega
  · exact isBoundary_length before more

theorem parts_of_boundaries {text : List Char} {start stop : Nat}
    (first : isBoundary text start = true) (last : isBoundary text stop = true)
    (ordered : start ≤ stop) :
    ∃ before middle after, text = before ++ (middle ++ after) ∧ byteLength before = start ∧
      byteLength before + byteLength middle = stop := by
  obtain ⟨before, rest, rfl, rfl⟩ := isBoundary_iff.mp first
  obtain ⟨front, after, parts, rfl⟩ := isBoundary_iff.mp last
  rcases Nat.eq_or_lt_of_le ordered with same | shorter
  · exact ⟨before, [], rest, rfl, rfl, by simpa using same⟩
  · obtain ⟨c, more, rfl, rfl⟩ := append_of_length_lt parts shorter
    exact ⟨before, c :: more, after, by simp, rfl, by simp⟩

theorem slice?_of_parts {before middle : List Char} (after : List Char) {span : Span}
    (start : byteLength before = span.start)
    (stop : byteLength before + byteLength middle = span.stop) :
    slice? (before ++ (middle ++ after)) span = some middle := by
  have length : byteLength middle = span.length := by
    simp only [Span.length]
    omega
  rw [slice?, splitAt?_eq_some_iff.mpr ⟨rfl, start⟩]
  simp [splitAt?_eq_some_iff.mpr ⟨rfl, length⟩]

theorem parts_of_slice? {text covered : List Char} {span : Span} (slice : slice? text span = some covered) :
    ∃ before after, text = before ++ (covered ++ after) ∧ byteLength before = span.start ∧
      byteLength before + byteLength covered = span.stop := by
  rw [slice?, Option.bind_eq_bind, Option.bind_eq_some_iff] at slice
  obtain ⟨⟨before, rest⟩, outer, slice⟩ := slice
  obtain ⟨⟨front, after⟩, inner, same⟩ := Option.bind_eq_some_iff.mp slice
  obtain rfl : front = covered := Option.some.inj same
  obtain ⟨rfl, start⟩ := splitAt?_eq_some_iff.mp outer
  obtain ⟨rfl, length⟩ := splitAt?_eq_some_iff.mp inner
  have ordered := span.start_le_stop
  refine ⟨before, after, rfl, start, ?_⟩
  rw [start, length, Span.length]
  omega

theorem mem_of_slice? {text covered : List Char} {span : Span} (slice : slice? text span = some covered)
    {c : Char} (member : c ∈ covered) : c ∈ text := by
  obtain ⟨before, after, rfl, -, -⟩ := parts_of_slice? slice
  simp [member]

/-- A character that begins inside a part of the text is one of the part. -/
theorem At.of_part {front part back : List Char} {offset : Nat} {c : Char}
    (here : At (front ++ (part ++ back)) offset c) (from_ : byteLength front ≤ offset)
    (upTo : offset < byteLength front + byteLength part) :
    ∃ before after, part = before ++ c :: after ∧ offset = byteLength front + byteLength before := by
  obtain ⟨before, after, parts, rfl⟩ := here
  rcases Nat.eq_or_lt_of_le from_ with same | shorter
  · obtain ⟨rfl, rest⟩ := append_inj parts same
    cases part with
    | nil => simp at upTo
    | cons d part =>
        obtain ⟨rfl, -⟩ := List.cons.inj rest
        exact ⟨[], part, rfl, by simp⟩
  · obtain ⟨d, more, rfl, rest⟩ := append_of_length_lt parts shorter
    have inside : byteLength (d :: more) < byteLength part := by
      simp only [byteLength_append] at upTo
      omega
    have parts' : part ++ back = (d :: more) ++ c :: after := by simpa using rest
    obtain ⟨e, more', rfl, rest'⟩ := append_of_length_lt parts'.symm inside
    obtain ⟨rfl, -⟩ := List.cons.inj rest'
    exact ⟨d :: more, more', rfl, by simp⟩

end Requalify.Text
