import Requalify.Proofs.Edit.Qualified
import Requalify.Proofs.Edit.Untouched

/-!
The edit of one reference by itself, and what it means for a leading `::`. The separator stays in front of
the names that the edit spells. These are the visible path without the names that the enclosing namespace
implies, so behind a leading `::` the path is complete exactly if none is implied.
-/

namespace Requalify

open Chunk

/-- Behind the first names of a chain stands the next one. -/
theorem NameChain.Written.name_behind {chain : NameChain} {whole front lead : List Chunk}
    {segments : List Segment} {gaps : List Chunk} {last : Chunk} {back : List Chunk}
    (written : chain.Written whole front lead segments gaps last back)
    (passed : List (NameToken × Span)) :
    (((segments.drop passed.length).flatMap Segment.chunks ++ (gaps ++ [last])).filterMap
      lexeme?).head? = some (.identifier, (chain.nameBehind passed).text) := by
  obtain ⟨names, valid, spelled⟩ := written.valid
  have left : ((segments.drop passed.length).flatMap Segment.chunks).filterMap lexeme? =
      nameLexemes ((chain.qualifiers.drop passed.length).map (·.1.text)) := by
    rw [Segment.lexemes_names (List.forall₂_drop passed.length valid), List.map_drop, spelled,
      List.map_drop]
  have final : (gaps ++ [last]).filterMap lexeme? = [(.identifier, chain.last.text)] := by
    rw [List.filterMap_append, lexemes_of_gaps written.gapKinds]
    simp [lexeme?, written.lastKind, written.lastText]
  rw [List.filterMap_append, left, final, nameBehind]
  cases chain.qualifiers.drop passed.length with
  | nil => rfl
  | cons next others => rfl

namespace Source

/-- The tokens that begin in front of an offset, without their places. -/
def lexemesBefore (source : Source) (offset : Nat) : List (TokenKind × String) :=
  ((tokenize source.text).filter fun token => decide (token.start < offset)).map Token.lexeme

theorem lexemesBefore_front {source : Source} {front rest : List Chunk}
    (parts : flatten (front ++ rest) = source.text.toList) (reads : Reads true [] (front ++ rest)) :
    source.lexemesBefore (Text.byteLength (flatten front)) = front.filterMap lexeme? := by
  have before : ∀ token ∈ tokens 0 front, token.start < Text.byteLength (flatten front) := by
    intro token member
    have upTo := (start_of_mem_tokens member).2
    omega
  have behind : ∀ token ∈ tokens (Text.byteLength (flatten front)) rest,
      ¬token.start < Text.byteLength (flatten front) := by
    intro token member
    have from_ := (start_of_mem_tokens member).1
    omega
  rw [lexemesBefore, tokenize_of_reads parts reads, tokens_append, Nat.zero_add, List.filter_append,
    List.filter_eq_self.mpr (by simpa using before), List.filter_eq_nil_iff.mpr (by simpa using behind),
    List.append_nil, tokens_map_lexeme]

section Alone

variable {source : Source} {policy : Policy} {catalog : Catalog} {reference : Reference} {edit : Edit}

theorem splice_alone (member : reference ∈ source.references catalog)
    (asked : Edit.ofReference policy source reference = some edit) :
    Patch.splice source.text [edit.patch] =
      .ok (String.ofList (Patch.rewrite [edit.patch] source.text.toList)) := by
  have known : edit ∈ source.qualifications policy catalog :=
    List.mem_filterMap.mpr ⟨reference, member, asked⟩
  refine Patch.splice_eq_rewrite (List.pairwise_singleton _ _) ?_
  rw [List.forall_mem_singleton]
  exact (source.qualifications_compatible policy catalog).2 edit known

/-- The edit of a reference puts the names to spell in place of the written ones. A leading separator and
the name behind the qualifier stay. -/
theorem lexemes_of_edit (writable : catalog.Writable) (member : reference ∈ source.references catalog)
    (asked : Edit.ofReference policy source reference = some edit)
    (narrow : Text.Narrow (source.slice reference.node.qualifierSpan).toList)
    (splits : source.splitsAtTokens reference.node.qualifierSpan = true) :
    let before := source.lexemesBefore reference.node.qualifierSpan.start
    let lead := reference.node.leading?.toList.map fun _ => (TokenKind.scope, "::")
    ∃ behind, (tokenize source.text).map Token.lexeme =
        before ++ (lead ++ (nameLexemes reference.node.namespaceNames ++ behind)) ∧
      (tokenize (String.ofList (Patch.rewrite [edit.patch] source.text.toList))).map Token.lexeme =
        before ++ (lead ++ (reference.spelledLexemes policy ++ behind)) ∧
      behind.head? = some (.identifier, reference.declaration.name) := by
  obtain ⟨whole, parts, reads⟩ := Chunk.exists_reads true source.text.toList
  obtain ⟨chain, passed, front, lead, segments, gaps, last, back, written, qualifies, name⟩ :=
    reference_written parts reads member
  obtain ⟨names, blanks, region, kept, chunks, requalified, spelling⟩ :=
    Edit.exists_requalified parts reads narrow written qualifies (reference_writable writable member)
      splits asked
  obtain ⟨tokens, valid, spaces⟩ := written.namespaces qualifies
  obtain ⟨start, -⟩ := written.qualifier qualifies
  have wholeParts := written.parts_at passed.length
  have leading : lead.filterMap lexeme? =
      reference.node.leading?.toList.map fun _ => (TokenKind.scope, "::") := by
    rw [qualifies.leading, written.lead_eq]
    cases chain.leading with
    | none => rfl
    | some span => rfl
  have old : front.filterMap lexeme? = source.lexemesBefore reference.node.qualifierSpan.start := by
    rw [start, ← lexemesBefore_front (wholeParts ▸ parts) (wholeParts ▸ reads)]
  have spelled : (ofNames names).filterMap lexeme? = nameLexemes names :=
    lexemes_ofNames requalified.areNames
  have blank : blanks.filterMap lexeme? = [] :=
    lexemes_of_gaps fun chunk member => (requalified.blank chunk member).1
  refine ⟨((segments.drop passed.length).flatMap Segment.chunks ++ (gaps ++ [last]) ++ back).filterMap
    lexeme?, ?_, ?_, ?_⟩
  · rw [tokenize_of_reads parts reads, tokens_map_lexeme, wholeParts, ← old, ← leading, ← spaces,
      ← Segment.lexemes_names valid]
    simp
  · rw [← parts, requalified.lexemes_alone reads, ← old, ← leading, Reference.spelledLexemes, ← spelling]
    simp [blank, spelled]
  · rw [List.filterMap_append, List.head?_append, written.name_behind passed, name]
    rfl

end Alone

/-- Behind a leading `::` an edit spells the visible path without the names that the enclosing namespace
implies. It is the complete path exactly if there are none. -/
theorem absolute_complete_iff (source : Source) (policy : Policy) (files : List (String × Bool))
    {reference : Reference} {leading : Span} {edit : Edit}
    (member : reference ∈ source.references (Catalog.ofTexts files))
    (absolute : reference.node.leading? = some leading)
    (asked : Edit.ofReference policy source reference = some edit)
    (narrow : Text.Narrow (source.slice reference.node.qualifierSpan).toList)
    (splits : source.splitsAtTokens reference.node.qualifierSpan = true) :
    let declaration := reference.declaration
    let visible := Qualification.visible policy declaration.path declaration.name
    let implied := Qualification.implied declaration.path reference.context
    let before := source.lexemesBefore reference.node.qualifierSpan.start
    ∃ rewritten behind, Patch.splice source.text [edit.patch] = .ok rewritten ∧
      (tokenize source.text).map Token.lexeme =
        before ++ (.scope, "::") :: (nameLexemes reference.node.namespaceNames ++ behind) ∧
      (tokenize rewritten).map Token.lexeme =
        before ++ (.scope, "::") :: (nameLexemes (visible.drop implied) ++ behind) ∧
      behind.head? = some (.identifier, declaration.name) ∧
      (visible.drop implied = visible ↔ implied = 0) := by
  intro declaration visible implied before
  obtain ⟨behind, old, new, name⟩ :=
    lexemes_of_edit (Catalog.ofTexts_writable files) member asked narrow splits
  rw [absolute] at old new
  obtain ⟨stop, -, beyond, within, -⟩ := Edit.ofReference_patch asked
  have some_left : implied < policy.visibleLength declaration.path declaration.name :=
    Nat.lt_of_lt_of_le beyond within
  have size : visible.length = policy.visibleLength declaration.path declaration.name :=
    Qualification.length_visible
  refine ⟨_, behind, splice_alone member asked, old, new, name, fun same => ?_, fun nothing => ?_⟩
  · have shorter := congrArg List.length same
    rw [List.length_drop] at shorter
    omega
  · rw [nothing, List.drop_zero]

set_option maxRecDepth 100000 in
/-- The same qualifier is completed outside `boost`, and is not inside of it. -/
theorem absolute_complete_iff_trim :
    let source : Source := ⟨⟨"/p/a.cpp"⟩, "a.cpp",
      "int m = ::boost::trim;\nnamespace boost \x7b int n = ::boost::trim; \x7d\n"⟩
    let catalog := Catalog.ofTexts
      [("namespace boost \x7b namespace algorithm \x7b int trim; \x7d using algorithm::trim; \x7d", true)]
    let trim (start : Nat) (context : Option NamespacePath) : Reference :=
      ⟨.expression (some ⟨some (Span.between start (start + 2)),
          [⟨⟨"boost", Span.between (start + 2) (start + 7)⟩, Span.between (start + 7) (start + 9),
            .ofNamespace⟩]⟩) ⟨"trim", Span.between (start + 9) (start + 13)⟩,
        ⟨"trim", ⟨["boost", "algorithm"]⟩, .variable⟩, context⟩
    let spells (reference : Reference) (names : List String) : Prop :=
      ∃ edit rewritten behind, Edit.ofReference .standard source reference = some edit ∧
        Patch.splice source.text [edit.patch] = .ok rewritten ∧
        (tokenize rewritten).map Token.lexeme =
          source.lexemesBefore reference.node.qualifierSpan.start ++
            (.scope, "::") :: (nameLexemes names ++ behind) ∧
        behind.head? = some (.identifier, "trim")
    source.references catalog = [trim 8 none, trim 49 (some ⟨["boost"]⟩)] ∧
    spells (trim 8 none) ["boost", "algorithm"] ∧
    spells (trim 49 (some ⟨["boost"]⟩)) ["algorithm"] := by
  intro source catalog trim spells
  let patch (start : Nat) (text : String) : Edit :=
    ⟨Patch.replace (Span.between (start + 2) (start + 9)) text Edit.qualifyLabel, start⟩
  have evaluated : source.references catalog = [trim 8 none, trim 49 (some ⟨["boost"]⟩)] ∧
      Edit.ofReference .standard source (trim 8 none) = some (patch 8 "boost::algorithm::") ∧
      Edit.ofReference .standard source (trim 49 (some ⟨["boost"]⟩)) = some (patch 49 "algorithm::") ∧
      ∀ reference ∈ [trim 8 none, trim 49 (some ⟨["boost"]⟩)],
        Text.Narrow (source.slice reference.node.qualifierSpan).toList ∧
          source.splitsAtTokens reference.node.qualifierSpan = true := by
    decide +kernel
  obtain ⟨references, outside, inside, plain⟩ := evaluated
  have known {reference : Reference} (member : reference ∈ [trim 8 none, trim 49 (some ⟨["boost"]⟩)]) :
      reference ∈ source.references catalog := references ▸ member
  have first : trim 8 none ∈ [trim 8 none, trim 49 (some ⟨["boost"]⟩)] := by simp
  have second : trim 49 (some ⟨["boost"]⟩) ∈ [trim 8 none, trim 49 (some ⟨["boost"]⟩)] := by simp
  refine ⟨references, ?_, ?_⟩
  · obtain ⟨rewritten, behind, spliced, -, spelled, name, -⟩ := absolute_complete_iff source .standard _
      (known first) rfl outside (plain _ first).1 (plain _ first).2
    exact ⟨_, rewritten, behind, outside, spliced, spelled, name⟩
  · obtain ⟨rewritten, behind, spliced, -, spelled, name, -⟩ := absolute_complete_iff source .standard _
      (known second) rfl inside (plain _ second).1 (plain _ second).2
    exact ⟨_, rewritten, behind, inside, spliced, spelled, name⟩

set_option maxRecDepth 100000 in
/-- Inside `boost` the edit leaves `::algorithm::trim`. -/
theorem absolute_incomplete : ¬∀ (source : Source) (policy : Policy) (files : List (String × Bool))
    (reference : Reference) (leading : Span) (edit : Edit),
    reference ∈ source.references (Catalog.ofTexts files) → reference.node.leading? = some leading →
    Edit.ofReference policy source reference = some edit →
    ∃ rewritten behind, Patch.splice source.text [edit.patch] = .ok rewritten ∧
      (tokenize rewritten).map Token.lexeme =
        source.lexemesBefore reference.node.qualifierSpan.start ++ (.scope, "::") ::
          (nameLexemes (Qualification.visible policy reference.declaration.path
            reference.declaration.name) ++ behind) := by
  intro claim
  let source : Source := ⟨⟨"/p/a.cpp"⟩, "a.cpp", "namespace boost\x7bint n=::boost::trim;\x7d"⟩
  let files :=
    [("namespace boost\x7bnamespace algorithm\x7bint trim;\x7dusing algorithm::trim;\x7d", true)]
  let reference : Reference :=
    ⟨.expression (some ⟨some ⟨22, 24, by decide⟩,
        [⟨⟨"boost", ⟨24, 29, by decide⟩⟩, ⟨29, 31, by decide⟩, .ofNamespace⟩]⟩)
          ⟨"trim", ⟨31, 35, by decide⟩⟩,
      ⟨"trim", ⟨["boost", "algorithm"]⟩, .variable⟩, some ⟨["boost"]⟩⟩
  let edit : Edit := ⟨Patch.replace ⟨24, 31, by decide⟩ "algorithm::" Edit.qualifyLabel, 22⟩
  have evaluated : reference ∈ source.references (Catalog.ofTexts files) ∧
      Edit.ofReference .standard source reference = some edit ∧
      Patch.splice source.text [edit.patch] = .ok "namespace boost\x7bint n=::algorithm::trim;\x7d" ∧
      ((tokenize "namespace boost\x7bint n=::algorithm::trim;\x7d").map Token.lexeme)[7]? =
        some (.identifier, "algorithm") ∧
      (source.lexemesBefore reference.node.qualifierSpan.start).length = 6 ∧
      Qualification.visible .standard reference.declaration.path reference.declaration.name =
        ["boost", "algorithm"] := by
    decide +kernel
  obtain ⟨member, asked, spliced, shown, place, visible⟩ := evaluated
  obtain ⟨rewritten, behind, result, spelled⟩ :=
    claim source .standard files reference _ edit member rfl asked
  obtain rfl := Except.ok.inj (spliced.symm.trans result)
  rw [spelled, List.getElem?_append_right (by omega), place, visible] at shown
  simp [nameLexemes] at shown

end Source

end Requalify
