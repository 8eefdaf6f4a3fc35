import Requalify.Proofs.Edit.Pieces
import Requalify.Proofs.Token.Segments

/-!
What is read of a written qualifier that is made of chunks. If the text between two separators never holds
a separator of its own, in a comment or a directive, the names are the segments: each with the blanks in
front of it, and its gaps that are no blanks as part of the name.
-/

namespace Requalify

/-- No character outside ASCII is white space. -/
def Text.Narrow (text : List Char) : Prop :=
  ∀ c ∈ text, 128 ≤ c.toNat → Text.isBlank c = false

instance (text : List Char) : Decidable (Text.Narrow text) :=
  List.decidableBAll (fun c : Char => 128 ≤ c.toNat → Text.isBlank c = false) text

theorem Text.isBlank_of_namePart {c : Char} (part : Piece.isNamePart c = true)
    (narrow : 128 ≤ c.toNat → Text.isBlank c = false) : Text.isBlank c = false := by
  have ascii : ∀ code < 128, Piece.isNamePart (Char.ofNat code) = true →
      Text.isBlank (Char.ofNat code) = false := by
    decide +kernel
  rcases Nat.lt_or_ge c.toNat 128 with code | wide
  · have known := ascii c.toNat code
    rw [Char.ofNat_toNat] at known
    exact known part
  · exact narrow wide

namespace Segment

open Chunk Text

variable {segment : Segment} {name : Token}

/-- The blanks in front of the first character of the piece that is none. -/
def blanks (segment : Segment) : List Chunk :=
  segment.before.takeWhile fun chunk => isAsciiBlank chunk.first

def solid (segment : Segment) : List Chunk :=
  (segment.before.dropWhile fun chunk => isAsciiBlank chunk.first) ++
    segment.name :: segment.behind

theorem piece_parts (segment : Segment) :
    segment.piece = flatten segment.blanks ++ flatten segment.solid := by
  rw [← flatten_append, blanks, solid, ← List.append_assoc, List.takeWhile_append_dropWhile, piece]

theorem blank_of_mem_blanks (valid : segment.Valid name) {chunk : Chunk}
    (member : chunk ∈ segment.blanks) :
    chunk.kind = none ∧ chunk.rest = [] ∧ isAsciiBlank chunk.first = true := by
  have blank : isAsciiBlank chunk.first = true :=
    List.all_eq_true.mp List.all_takeWhile chunk member
  obtain ⟨kind, shape⟩ := valid.before chunk ((List.takeWhile_prefix _).subset member)
  rcases shape with ⟨-, single⟩ | slash | hash
  · exact ⟨kind, single, blank⟩
  · rw [slash] at blank
    exact absurd blank (by decide)
  · rw [hash] at blank
    exact absurd blank (by decide)

section Trim

variable (valid : segment.Valid name) (narrow : Narrow segment.piece)

include valid

theorem isNamePart_of_mem_name {c : Char} (member : c ∈ segment.name.text) :
    Piece.isNamePart c = true :=
  valid.isName.isNamePart (valid.text ▸ member)

theorem first_of_solid : (∃ gap ∈ segment.solid,
      (flatten segment.solid).head? = some gap.first ∧ (gap.first = '/' ∨ gap.first = '#')) ∨
    segment.solid = segment.name :: segment.behind := by
  cases rest : segment.before.dropWhile fun chunk => isAsciiBlank chunk.first with
  | nil =>
      right
      rw [solid, rest]
      rfl
  | cons gap gaps =>
      left
      have member : gap ∈ segment.before :=
        (List.dropWhile_suffix _).subset (rest ▸ List.mem_cons_self)
      have nonblank : ¬isAsciiBlank gap.first = true := by
        have first := List.head?_dropWhile_not (fun chunk : Chunk => isAsciiBlank chunk.first)
          segment.before
        rw [rest] at first
        simpa using first
      refine ⟨gap, ?_, ?_, ?_⟩
      · simp [solid, rest]
      · simp [solid, rest, Chunk.text]
      · exact (valid.before gap member).shape.resolve_left fun blank => nonblank blank.1

include narrow

theorem isBlank_of_mem_name {c : Char} (member : c ∈ segment.name.text) : isBlank c = false := by
  refine isBlank_of_namePart (isNamePart_of_mem_name valid member) (narrow c ?_)
  rw [piece, flatten_append, flatten_cons]
  simp [member]

theorem solid_head : (flatten segment.solid).head?.any isBlank = false := by
  rcases first_of_solid valid with ⟨gap, -, first, slash | hash⟩ | named
  · rw [first, slash]
    decide
  · rw [first, hash]
    decide
  · rw [named, flatten_cons]
    exact isBlank_of_mem_name valid narrow List.mem_cons_self

theorem trimStart_piece : trimStart segment.piece = flatten segment.solid := by
  rw [piece_parts]
  refine trimStart_append (fun c member => ?_) (solid_head valid narrow)
  obtain ⟨chunk, inBlanks, inChunk⟩ := List.mem_flatMap.mp member
  obtain ⟨-, single, blank⟩ := blank_of_mem_blanks valid inBlanks
  rw [Chunk.text, single, List.mem_singleton] at inChunk
  rw [inChunk]
  exact isBlank_of_asciiBlank blank

theorem mem_trim {c : Char} (member : c ∈ flatten segment.solid) (solid : isBlank c = false) :
    c ∈ trim segment.piece := by
  rw [trim, trimStart_piece valid narrow]
  exact mem_trimEnd member solid

theorem trim_ne_nil : trim segment.piece ≠ [] := by
  have first : segment.name.first ∈ segment.name.text := List.mem_cons_self
  refine List.ne_nil_of_mem (mem_trim valid narrow (c := segment.name.first) ?_
    (isBlank_of_mem_name valid narrow first))
  simp [solid, first]

/-- A piece that is read as a name holds nothing but a name and blanks. -/
theorem blank_of_trim (isName : IsName (String.ofList (trim segment.piece))) :
    ∀ c ∈ flatten (segment.before ++ segment.behind), isBlank c = true := by
  have part {c : Char} (member : c ∈ flatten segment.solid) (nonblank : isBlank c = false) :
      Piece.isNamePart c = true := by
    refine isName.isNamePart ?_
    rw [String.toList_ofList]
    exact mem_trim valid narrow member nonblank
  have plain {gap : Chunk} (member : gap ∈ segment.solid) (mark : gap.first = '/' ∨ gap.first = '#') :
      False := by
    have inSolid : gap.first ∈ flatten segment.solid :=
      List.mem_flatMap.mpr ⟨gap, member, List.mem_cons_self⟩
    rcases mark with slash | hash
    · rw [slash] at inSolid
      exact absurd (part inSolid (by decide)) (by decide)
    · rw [hash] at inSolid
      exact absurd (part inSolid (by decide)) (by decide)
  have named : segment.solid = segment.name :: segment.behind := by
    rcases first_of_solid valid with ⟨gap, member, -, mark⟩ | named
    · exact absurd mark (plain member)
    · exact named
  have allBlanks : segment.blanks = segment.before := by
    have parts : segment.blanks ++ segment.solid =
        segment.before ++ segment.name :: segment.behind := by
      rw [blanks, solid, ← List.append_assoc, List.takeWhile_append_dropWhile]
    rw [named] at parts
    exact List.append_cancel_right parts
  have single {gap : Chunk} (rest : gap.rest = []) (blank : isAsciiBlank gap.first = true) :
      ∀ c ∈ gap.text, isBlank c = true := by
    rw [Chunk.text, rest, List.forall_mem_singleton]
    exact isBlank_of_asciiBlank blank
  intro c member
  obtain ⟨gap, known, inGap⟩ := List.mem_flatMap.mp member
  rcases List.mem_append.mp known with inBefore | inBehind
  · obtain ⟨-, rest, blank⟩ := blank_of_mem_blanks valid (allBlanks ▸ inBefore)
    exact single rest blank c inGap
  · rcases (valid.behind gap inBehind).shape with ⟨blank, rest⟩ | mark
    · exact single rest blank c inGap
    · exact absurd mark (plain (named ▸ List.mem_cons_of_mem _ inBehind))

omit valid narrow in
/-- Nothing but blanks around a name is trimmed. -/
theorem trim_of_blank (solidName : ∀ c ∈ segment.name.text, isBlank c = false)
    (blank : ∀ c ∈ flatten (segment.before ++ segment.behind), isBlank c = true) :
    trim segment.piece = segment.name.text := by
  rw [flatten_append] at blank
  have parts : segment.piece =
      flatten segment.before ++ (segment.name.text ++ flatten segment.behind) := by
    simp [piece]
  rw [parts, trim, trimStart_append fun c member => blank c (List.mem_append_left _ member),
    trimEnd_append fun c member => blank c (List.mem_append_right _ member)]
  · rw [text_getLast?]
    exact solidName _ (List.mem_of_getLast? (text_getLast? segment.name))
  · exact solidName _ List.mem_cons_self

theorem name_of_trim {spelled : String} (isName : IsName spelled)
    (same : String.ofList (trim segment.piece) = spelled) : name.text = spelled := by
  rw [← same, trim_of_blank (fun c member => isBlank_of_mem_name valid narrow member)
    (blank_of_trim valid narrow (same ▸ isName)), valid.text, String.ofList_toList]

end Trim

/-- What is read of the segments, the first of which starts at `offset`. -/
def writtenNames (offset : Nat) : List Segment → List WrittenName
  | [] => []
  | segment :: rest =>
      { text := String.ofList (trim segment.piece)
        start := offset + byteLength (flatten segment.blanks)
        stop := offset + byteLength (flatten segment.chunks) } ::
        writtenNames (offset + byteLength (flatten segment.chunks)) rest

section Names

variable {segments : List Segment} {names : List Token}

theorem pieces_flatMap (valid : List.Forall₂ Valid segments names) :
    NamespacePath.pieces (flatten (segments.flatMap chunks)) =
      (segments.flatMap fun segment => NamespacePath.pieces segment.piece) ++ [[]] := by
  induction valid with
  | nil => rfl
  | cons first rest ih =>
      rw [List.flatMap_cons, flatten_append, flatten_chunks, List.append_assoc, List.cons_append,
        List.cons_append, List.nil_append, NamespacePath.pieces_append first.apart, ih,
        List.flatMap_cons, List.append_assoc]

/-- If there are no more pieces than segments, each segment is one piece. -/
theorem pieces_of_length (few : (segments.flatMap fun segment =>
      NamespacePath.pieces segment.piece).length ≤ segments.length) :
    (segments.flatMap fun segment => NamespacePath.pieces segment.piece) = segments.map piece := by
  have some_piece (segments : List Segment) : segments.length ≤
      (segments.flatMap fun segment => NamespacePath.pieces segment.piece).length := by
    induction segments with
    | nil => exact Nat.le_refl _
    | cons segment segments ih =>
        have positive := List.length_pos_iff.mpr (NamespacePath.pieces_ne_nil segment.piece)
        rw [List.flatMap_cons, List.length_append, List.length_cons]
        omega
  induction segments with
  | nil => rfl
  | cons segment segments ih =>
      have positive := List.length_pos_iff.mpr (NamespacePath.pieces_ne_nil segment.piece)
      have others := some_piece segments
      rw [List.flatMap_cons, List.length_append, List.length_cons] at few
      rw [List.flatMap_cons, ih (by omega), NamespacePath.pieces_eq_singleton (by omega)]
      rfl

theorem namesFrom_segments (valid : List.Forall₂ Valid segments names)
    (narrow : Narrow (flatten (segments.flatMap chunks))) (offset : Nat) :
    WrittenQualifier.namesFrom offset (segments.map piece ++ [[]]) = writtenNames offset segments := by
  induction valid generalizing offset with
  | nil => rfl
  | @cons segment name segments names first rest ih =>
      have narrow' : Narrow segment.piece := fun c member => narrow c (by
        simp [flatten_chunks, member])
      have size : byteLength (flatten segment.chunks) = byteLength segment.piece + 2 := by
        rw [flatten_chunks, byteLength_append]
        rfl
      have start : byteLength segment.piece - byteLength (trimStart segment.piece) =
          byteLength (flatten segment.blanks) := by
        rw [trimStart_piece first narrow', piece_parts, byteLength_append, Nat.add_sub_cancel]
      have nonempty : (trim segment.piece).isEmpty = false := by
        simpa using trim_ne_nil first narrow'
      have more : (segments.map piece ++ [[]]).isEmpty = false := by simp
      rw [List.map_cons, List.cons_append, WrittenQualifier.namesFrom, writtenNames]
      simp only [nonempty, more, start, size, Bool.false_eq_true, if_false, Nat.add_assoc]
      rw [ih (fun c member => narrow c (by simp [member]))]

theorem writtenNames_take (offset : Nat) (segments : List Segment) (count : Nat) :
    (writtenNames offset segments).take count = writtenNames offset (segments.take count) := by
  induction segments generalizing offset count with
  | nil => simp [writtenNames]
  | cons segment segments ih =>
      cases count with
      | zero => rfl
      | succ count => simp [writtenNames, ih]

theorem writtenNames_text (offset : Nat) (segments : List Segment) :
    (writtenNames offset segments).map (·.text) =
      segments.map fun segment => String.ofList (trim segment.piece) := by
  induction segments generalizing offset with
  | nil => rfl
  | cons segment segments ih => simp [writtenNames, ih]

theorem writtenNames_stop (offset : Nat) (segment : Segment) (segments : List Segment) :
    ((writtenNames offset (segment :: segments)).getLast?).map (·.stop) =
      some (offset + byteLength (flatten ((segment :: segments).flatMap chunks))) := by
  induction segments generalizing offset segment with
  | nil => simp [writtenNames]
  | cons next segments ih =>
      have later := ih (offset + byteLength (flatten segment.chunks)) next
      rw [writtenNames, List.getLast?_cons_of_ne_nil (by simp [writtenNames]), later]
      simp [Nat.add_assoc]

end Names

/-! The edits of a qualifier, which may have a leading separator. -/

/-- The blanks in front of the first segment. -/
def blanksAhead (segments : List Segment) : List Chunk :=
  (segments.head?.map blanks).getD []

/-- The segments without the blanks in front of them. -/
def region : List Segment → List Chunk
  | [] => []
  | segment :: rest => segment.solid ++ separator :: rest.flatMap chunks

theorem flatMap_chunks (segments : List Segment) :
    segments.flatMap chunks = blanksAhead segments ++ region segments := by
  cases segments with
  | nil => rfl
  | cons segment segments =>
      have first : segment.chunks = segment.blanks ++ (segment.solid ++ [separator]) := by
        rw [← List.append_assoc, blanks, solid, ← List.append_assoc, List.takeWhile_append_dropWhile,
          chunks]
        simp
      simp [blanksAhead, region, first]

theorem region_getLast? {segments : List Segment} (nonempty : segments ≠ []) :
    (region segments).getLast? = some separator := by
  have chunksLast (segment : Segment) : segment.chunks.getLast? = some separator := by
    simp [chunks, List.getLast?_append, List.getLast?_cons]
  have lasts {segments : List Segment} (nonempty : segments ≠ []) :
      (segments.flatMap chunks).getLast? = some separator := by
    rw [← List.dropLast_concat_getLast nonempty, List.flatMap_append, List.getLast?_append]
    simp [chunksLast]
  cases segments with
  | nil => exact absurd rfl nonempty
  | cons segment segments =>
      cases segments with
      | nil => simp [region]
      | cons next segments =>
          rw [region, List.getLast?_append, List.getLast?_cons_of_ne_nil (by simp [chunks]),
            lasts (by simp)]
          rfl

theorem region_ends (segments : List Segment) :
    region segments = [] ∧ blanksAhead segments = [] ∨ (region segments).getLast? = some separator := by
  cases segments with
  | nil => exact .inl ⟨rfl, rfl⟩
  | cons segment segments => exact .inr (region_getLast? (by simp))

theorem blank_of_mem_blanksAhead {segments : List Segment} {names : List Token}
    (valid : List.Forall₂ Valid segments names) : ∀ chunk ∈ blanksAhead segments,
      chunk.kind = none ∧ chunk.rest = [] ∧ isAsciiBlank chunk.first = true := by
  cases valid with
  | nil => simp [blanksAhead]
  | cons first rest => exact fun chunk member => blank_of_mem_blanks first member

/-- The qualifier, which starts at `offset`, has the segments as names. -/
structure ReadsAs (qualifier : WrittenQualifier) (offset : Nat) (lead : List Chunk)
    (segments : List Segment) : Prop where
  path : qualifier.path.segments = segments.map fun segment => String.ofList (trim segment.piece)
  insertionPoint : qualifier.insertionPoint = offset + byteLength (flatten lead)
  leadingSpan : ∀ count,
    (qualifier.leadingSpan count).start =
        offset + byteLength (flatten (lead ++ blanksAhead (segments.take count))) ∧
      (qualifier.leadingSpan count).stop =
        offset + byteLength (flatten (lead ++ (segments.take count).flatMap chunks))

section Qualifier

variable {lead : List Chunk} {segments : List Segment} {names : List Token}
  (isLead : lead = [] ∨ lead = [separator]) (valid : List.Forall₂ Valid segments names)

include isLead valid

theorem pieces_qualifier : NamespacePath.pieces (flatten (lead ++ segments.flatMap chunks)) =
    (lead.map fun _ => []) ++
      ((segments.flatMap fun segment => NamespacePath.pieces segment.piece) ++ [[]]) := by
  rw [← pieces_flatMap valid]
  rcases isLead with rfl | rfl
  · rfl
  · rfl

variable (narrow : Narrow (flatten (segments.flatMap chunks)))
  (single : (segments.flatMap fun segment => NamespacePath.pieces segment.piece) = segments.map piece)
  (span : Span)

include narrow single

theorem readText_names : (WrittenQualifier.readText (flatten (lead ++ segments.flatMap chunks))
    span).names = writtenNames (byteLength (flatten lead)) segments := by
  rw [WrittenQualifier.readText, pieces_qualifier isLead valid, single]
  rcases isLead with rfl | rfl
  · exact namesFrom_segments valid narrow 0
  · exact namesFrom_segments valid narrow 2

theorem readText_insertionPoint : (WrittenQualifier.readText
    (flatten (lead ++ segments.flatMap chunks)) span).insertionPoint =
      span.start + byteLength (flatten lead) := by
  rw [WrittenQualifier.insertionPoint, WrittenQualifier.readText,
    pieces_qualifier isLead valid, single]
  congr 1
  rcases isLead with rfl | rfl
  · cases valid with
    | nil => rfl
    | @cons segment name segments names first rest =>
        have named : (trim segment.piece).isEmpty = false := by
          refine List.isEmpty_eq_false_iff.mpr (trim_ne_nil first fun c member => narrow c ?_)
          simp [flatten_chunks, member]
        cases segments with
        | nil => simp [named]
        | cons next segments => simp [named]
  · cases segments with
    | nil => rfl
    | cons segment segments => rfl

theorem readText_leadingSpan (count : Nat) :
    let replaced := (WrittenQualifier.readText (flatten (lead ++ segments.flatMap chunks))
      span).leadingSpan count
    replaced.start = span.start + byteLength (flatten (lead ++ blanksAhead (segments.take count))) ∧
      replaced.stop =
        span.start + byteLength (flatten (lead ++ (segments.take count).flatMap chunks)) := by
  have insertion := readText_insertionPoint isLead valid narrow single span
  have names := readText_names isLead valid narrow single span
  dsimp only
  generalize qualifierEq : WrittenQualifier.readText (flatten (lead ++ segments.flatMap chunks)) span =
    qualifier at insertion names
  have place : qualifier.span = span := by
    rw [← qualifierEq]
    rfl
  rw [WrittenQualifier.leadingSpan, names, writtenNames_take, insertion, place]
  cases segments.take count with
  | nil => simp [writtenNames, Span.point, blanksAhead]
  | cons first rest =>
      obtain ⟨last, isLast, stop⟩ : ∃ last : WrittenName, _ ∧ last.stop = _ :=
        Option.map_eq_some_iff.mp (writtenNames_stop (byteLength (flatten lead)) first rest)
      have parts : flatten ((first :: rest).flatMap chunks) =
          flatten first.blanks ++ flatten (region (first :: rest)) := by
        rw [flatMap_chunks, flatten_append]
        rfl
      rw [isLast]
      simp only [writtenNames, List.head?_cons, Span.between, blanksAhead, Option.map_some,
        Option.getD_some, flatten_append, byteLength_append, stop, parts, true_and]
      omega

/-- Segments behind a leading separator are read with their names, and edits of the first names take the
first segments without the blanks in front. -/
theorem readText_readsAs : ReadsAs (WrittenQualifier.readText
    (flatten (lead ++ segments.flatMap chunks)) span) span.start lead segments := by
  refine ⟨?_, readText_insertionPoint isLead valid narrow single span,
    readText_leadingSpan isLead valid narrow single span⟩
  rw [WrittenQualifier.path, readText_names isLead valid narrow single, writtenNames_text]

end Qualifier

end Segment

end Requalify
