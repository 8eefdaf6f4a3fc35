import Requalify.Proofs.Edit.Requalified
import Requalify.Proofs.ModuleName.Spelling
import Requalify.Proofs.Patch.Rewriting

/-!
Reading a qualifier again behind its edit. The names that an edit replaces stand behind pieces that are blank
and in front of whole pieces, so the text that is put in their place is read name by name, and what stands
behind it as before.
-/

namespace Requalify

theorem NamespacePath.qualifier_eq_ended {names : List String} (filled : names ≠ []) :
    ((⟨names⟩ : NamespacePath).qualifier 0 names.length).toList = ended (names.map String.toList) := by
  rw [toList_qualifier (by simpa using filled), ended, List.flatMap_map, List.drop_zero, List.take_length]

namespace WrittenQualifier

open NamespacePath Text

theorem isBlank_of_identifierChar {c : Char} (part : ModuleName.isIdentifierChar c = true) :
    isBlank c = false := by
  have narrow : c.toNat < 128 := by
    delta ModuleName.isIdentifierChar Char.isAlphanum Char.isAlpha Char.isUpper Char.isLower
      Char.isDigit at part
    simp only [Bool.or_eq_true, Bool.and_eq_true, decide_eq_true_eq, beq_iff_eq,
      UInt32.le_iff_toNat_le] at part
    rcases part with ((⟨-, bound⟩ | ⟨-, bound⟩) | ⟨-, bound⟩) | rfl
    · exact Nat.lt_of_le_of_lt bound (by decide)
    · exact Nat.lt_of_le_of_lt bound (by decide)
    · exact Nat.lt_of_le_of_lt bound (by decide)
    · decide
  exact isBlank_of_namePart (ModuleName.isNamePart_of_identifierChar part)
    fun wide => absurd narrow (Nat.not_lt.mpr wide)

/-- A name of ASCII letters, digits and underscores. -/
def IsAsciiName (name : String) : Prop :=
  name.toList ≠ [] ∧ ∀ c ∈ name.toList, ModuleName.isIdentifierChar c = true

instance (name : String) : Decidable (IsAsciiName name) :=
  @instDecidableAnd _ _ inferInstance
    (List.decidableBAll (fun c : Char => ModuleName.isIdentifierChar c = true) name.toList)

theorem IsAsciiName.nonblank {name : String} (isName : IsAsciiName name) :
    ∀ c ∈ name.toList, isBlank c = false :=
  fun c member => isBlank_of_identifierChar (isName.2 c member)

theorem IsAsciiName.not_colon {name : String} (isName : IsAsciiName name) : ':' ∉ name.toList :=
  fun colon => absurd (isName.2 ':' colon) (by decide)

theorem IsAsciiName.ofPiece {name : String} (isName : IsAsciiName name) {lead : List Char}
    (blank : ∀ c ∈ lead, isBlank c = true) : NamespacePath.ofPiece (lead ++ name.toList) = [name] := by
  have alone := ofPiece_of_name blank isName.nonblank isName.1
  rwa [String.ofList_toList] at alone

section Edited

variable {blanks : List (List Char)} {lead : List Char} {names : List String}
  (blankPieces : ∀ piece ∈ blanks, ∀ c ∈ piece, isBlank c = true) (blankLead : ∀ c ∈ lead, isBlank c = true)
  (areNames : ∀ name ∈ names, IsAsciiName name)

include areNames

theorem ofPiece_names : (names.map String.toList).flatMap ofPiece = names := by
  induction names with
  | nil => rfl
  | cons name names ih =>
      obtain ⟨isName, areNames⟩ := List.forall_mem_cons.mp areNames
      have piece : ofPiece name.toList = [name] := @IsAsciiName.ofPiece _ isName [] (by simp)
      rw [List.map_cons, List.flatMap_cons, piece, ih areNames]
      rfl

include blankPieces blankLead

/-- The names that are put in are read as they are spelled, the first one behind blanks. -/
theorem pieces_edited {first : String} {others : List String} (parts : names = first :: others)
    (behind : List Char) :
    pieces (ended blanks ++ (lead ++ (ended (names.map String.toList) ++ behind))) =
      blanks ++ (lead ++ first.toList) :: (others.map String.toList ++ pieces behind) := by
  have whole : ended blanks ++ (lead ++ (ended (names.map String.toList) ++ behind)) =
      ended (blanks ++ (lead ++ first.toList) :: others.map String.toList) ++ behind := by
    simp [ended, parts]
  rw [whole, pieces_ended, List.append_assoc]
  · rfl
  · intro piece member
    rcases List.mem_append.mp member with inBlanks | inNames
    · exact not_colon_of_blank (blankPieces piece inBlanks)
    · rcases List.mem_cons.mp inNames with rfl | inOthers
      · rw [List.mem_append, not_or]
        exact ⟨not_colon_of_blank blankLead, (areNames first (by simp [parts])).not_colon⟩
      · obtain ⟨name, isOther, rfl⟩ := List.mem_map.mp inOthers
        exact (areNames name (by simp [parts, isOther])).not_colon

variable (filled : names ≠ [])

include filled

theorem ofPiece_edited (behind : List Char) :
    (pieces (ended blanks ++ (lead ++ (ended (names.map String.toList) ++ behind)))).flatMap ofPiece =
      names ++ (pieces behind).flatMap ofPiece := by
  obtain ⟨first, others, rfl⟩ := List.exists_cons_of_ne_nil filled
  obtain ⟨isFirst, areOthers⟩ := List.forall_mem_cons.mp areNames
  have nothing : blanks.flatMap ofPiece = [] :=
    List.flatMap_eq_nil_iff.mpr fun piece member => ofPiece_of_blank (blankPieces piece member)
  rw [pieces_edited blankPieces blankLead areNames rfl behind, List.flatMap_append, nothing,
    List.flatMap_cons, isFirst.ofPiece blankLead, List.flatMap_append, ofPiece_names areOthers]
  rfl

theorem leading_edited (behind : List Char) (span : Span) :
    (readText (ended blanks ++ (lead ++ (ended (names.map String.toList) ++ behind))) span).leading.isSome =
      !blanks.isEmpty := by
  obtain ⟨first, others, rfl⟩ := List.exists_cons_of_ne_nil filled
  have split := pieces_edited blankPieces blankLead areNames rfl behind
  have more : others.map String.toList ++ pieces behind ≠ [] := by simp [pieces_ne_nil behind]
  cases blanks with
  | nil =>
      have isFirst := areNames first List.mem_cons_self
      rw [leading_of_cons split more, trim_append blankLead isFirst.nonblank]
      simp [isFirst.1]
  | cons piece blanks =>
      have blank := trim_eq_nil_iff.mpr (blankPieces piece List.mem_cons_self)
      rw [leading_of_cons split (by simp), blank]
      rfl

end Edited

/-- The patch that puts text in place of the first names, or in front of all names. -/
def patch (qualifier : WrittenQualifier) (count : Nat) (text label : String) : Patch :=
  if count = 0 then Patch.insert qualifier.insertionPoint text label
  else Patch.replace (qualifier.leadingSpan count) text label

theorem patch_eq (qualifier : WrittenQualifier) (count : Nat) (text label : String) :
    qualifier.patch count text label = Patch.replace (qualifier.leadingSpan count) text label := by
  unfold patch
  split
  next nothing =>
    subst nothing
    simp [Patch.insert, Patch.replace, leadingSpan, Span.point, Span.length]
  next => rfl

/-- The names that an edit puts in are read in place of those that it takes out. -/
theorem Cut.readText_edited {text : List Char} {span : Span} {count : Nat} {blanks : List (List Char)}
    {lead removed behind : List Char} (cut : Cut text span count blanks lead removed behind)
    {names : List String} (filled : names ≠ []) (areNames : ∀ name ∈ names, IsAsciiName name)
    (adjusted : Span) :
    let again := readText (ended blanks ++ lead ++ (ended (names.map String.toList) ++ behind)) adjusted
    again.path.segments = names ++ (readText text span).path.segments.drop count ∧
      again.leading.isSome = (readText text span).leading.isSome := by
  rw [List.append_assoc]
  refine ⟨?_, ?_⟩
  · rw [readText_path, readText_path, parse_ofList, parse_ofList,
      ofPiece_edited cut.blankPieces cut.blankLead areNames filled, cut.others]
  · rw [leading_edited cut.blankPieces cut.blankLead areNames filled, cut.leading]

/-- A patch of a covered part is applied, and what it makes of the part is covered by the adjusted span. -/
theorem exists_spliced {text : String} {span : Span} {front removed behind : List Char} {patch : Patch}
    (inside : slice? text.toList span = some (front ++ (removed ++ behind)))
    (start : patch.offset = span.start + byteLength front) (length : patch.length = byteLength removed) :
    ∃ rewritten, Patch.splice text [patch] = .ok rewritten ∧
      slice? rewritten.toList (Span.between span.start
        (span.stop - patch.length + byteLength patch.text.toList)) =
          some (front ++ (patch.text.toList ++ behind)) := by
  obtain ⟨before, after, parts, startEq, stopEq⟩ := parts_of_slice? inside
  have whole : text.toList = (before ++ front) ++ (removed ++ (behind ++ after)) := by
    rw [parts]
    simp
  have offset : byteLength (before ++ front) = patch.offset := by
    rw [byteLength_append]
    omega
  have fits : patch.Fits text.toList := by
    refine ⟨?_, ?_⟩
    · rw [whole, ← offset]
      exact isBoundary_length _ _
    · rw [whole, ← offset, length, ← List.append_assoc, ← byteLength_append]
      exact isBoundary_length _ _
  refine ⟨_, Patch.splice_eq_rewrite (List.pairwise_singleton _ _) (List.forall_mem_singleton.mpr fits), ?_⟩
  rw [String.toList_ofList, whole, Patch.rewrite_cons (by simp) offset length.symm, Patch.rewrite_nil]
  have rewritten : before ++ front ++ (patch.text.toList ++ (behind ++ after)) =
      before ++ ((front ++ (patch.text.toList ++ behind)) ++ after) := by simp
  simp only [byteLength_append] at stopEq
  rw [rewritten, slice?_of_parts after]
  · exact startEq
  · simp only [byteLength_append, Span.between]
    omega

/-- A qualifier is read with the path that its text spells, and an edit of its first names is read again:
the new names stand in place of the first ones, and the leading `::` stays as it was. -/
theorem read_spliced {text : String} {span : Span} {covered : List Char}
    (inside : slice? text.toList span = some covered) :
    let qualifier := read text span
    qualifier.path = NamespacePath.parse (String.ofList covered) ∧
    (∀ name ∈ qualifier.names, name.start < name.stop ∧ span.start + name.stop ≤ span.stop) ∧
    (qualifier.names.Pairwise fun first second => first.stop ≤ second.start) ∧
    ∀ count ≤ qualifier.names.length, ∀ names : List String, names ≠ [] →
      (∀ name ∈ names, IsAsciiName name) → ∀ label : String,
        let spelled := (⟨names⟩ : NamespacePath).qualifier 0 names.length
        let patch := qualifier.patch count spelled label
        ∃ rewritten, Patch.splice text [patch] = .ok rewritten ∧
          let again := read rewritten
            (Span.between span.start (span.stop - patch.length + byteLength spelled.toList))
          again.path.segments = names ++ qualifier.path.segments.drop count ∧
          again.leading.isSome = qualifier.leading.isSome := by
  have isRead : read text span = readText covered span := by
    rw [read, inside]
    rfl
  obtain ⟨before, -, -, start, stop⟩ := parts_of_slice? inside
  obtain ⟨within, ordered⟩ := namesFrom_ordered 0 covered
  rw [isRead]
  refine ⟨readText_path covered span, fun name member => ?_, ordered, ?_⟩
  · have bounds := within name member
    exact ⟨bounds.2.1, by omega⟩
  · intro count fewer names filled areNames label
    dsimp only
    rw [patch_eq]
    have isSpelled := qualifier_eq_ended filled
    generalize (⟨names⟩ : NamespacePath).qualifier 0 names.length = spelled at isSpelled ⊢
    obtain ⟨blanks, lead, removed, behind, cut⟩ := exists_cut fewer
    have whole : covered = ended blanks ++ lead ++ (removed ++ behind) := by
      rw [List.append_assoc]
      exact cut.parts
    generalize isPatch : Patch.replace ((readText covered span).leadingSpan count) spelled label = patch
    have isText : patch.text = spelled := isPatch ▸ rfl
    obtain ⟨rewritten, spliced, covers⟩ := @exists_spliced text span _ removed behind patch
      (whole ▸ inside) (isPatch ▸ cut.start) (isPatch ▸ cut.length)
    rw [isText, isSpelled] at covers
    refine ⟨rewritten, spliced, ?_⟩
    rw [read, isSpelled, covers]
    exact cut.readText_edited filled areNames _

theorem read_spliced_boost :
    let text := "int n = :: std::v1 ::count;"
    let qualifier := read text ⟨8, 21, by decide⟩
    qualifier.path = ⟨["std", "v1"]⟩ ∧
      ∃ rewritten,
        Patch.splice text [qualifier.patch 1 "boost::algorithm::" "reference"] = .ok rewritten ∧
        (read rewritten ⟨8, 34, by decide⟩).path.segments = ["boost", "algorithm", "v1"] ∧
        (read rewritten ⟨8, 34, by decide⟩).leading.isSome = true := by
  intro text qualifier
  have inside : slice? text.toList ⟨8, 21, by decide⟩ = some [':', ':', ' ', 's', 't', 'd', ':', ':',
      'v', '1', ' ', ':', ':'] := by decide +kernel
  obtain ⟨path, -, -, edited⟩ := read_spliced inside
  have again := edited 1 (by decide +kernel) ["boost", "algorithm"] (by decide) (by decide +kernel)
    "reference"
  have spelled : (⟨["boost", "algorithm"]⟩ : NamespacePath).qualifier 0 ["boost", "algorithm"].length =
      "boost::algorithm::" := by decide +kernel
  have length : (qualifier.patch 1 "boost::algorithm::" "reference").length = 5 := by decide +kernel
  have size : byteLength "boost::algorithm::".toList = 18 := by decide +kernel
  have leading : qualifier.leading.isSome = true := by decide +kernel
  have isPath := path.trans (show _ = (⟨["std", "v1"]⟩ : NamespacePath) by decide +kernel)
  dsimp only at again
  rw [spelled, length, size, leading, isPath] at again
  exact ⟨isPath, again⟩

end WrittenQualifier

end Requalify
