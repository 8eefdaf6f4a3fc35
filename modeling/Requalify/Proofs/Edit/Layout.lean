import Requalify.Proofs.Edit.Qualified
import Requalify.Proofs.Edit.Untouched

/-!
Names that are written in full. A qualifier that is laid out with blanks alone is read with the names of its
tokens, and left alone if these are the path of the declaration or the visible part of it. A comment or a
directive is read as part of a name, so that a qualifier with one is written anew.
-/

namespace Requalify

open Chunk Text

namespace Segment

variable {segments : List Segment} {names : List Token}

/-- The text around the names. -/
def gapText (segments : List Segment) : List Char :=
  segments.flatMap fun segment => flatten (segment.before ++ segment.behind)

theorem gapText_cons (segment : Segment) (segments : List Segment) : gapText (segment :: segments) =
    flatten (segment.before ++ segment.behind) ++ gapText segments :=
  List.flatMap_cons

theorem countP_text (valid : List.Forall₂ Valid segments names) (counts : Char → Bool) :
    (flatten (segments.flatMap chunks)).countP counts = (gapText segments).countP counts +
      (names.flatMap fun name => name.text.toList ++ [':', ':']).countP counts := by
  induction valid with
  | nil => rfl
  | @cons segment name segments names first rest ih =>
      rw [List.flatMap_cons, flatten_append, List.countP_append, ih, flatten_chunks, piece, gapText_cons,
        List.flatMap_cons]
      simp only [flatten_append, flatten_cons, List.countP_append, first.text]
      omega

/-- The segments are made of their names and separators exactly if everything else is blank. -/
theorem filter_text_iff (valid : List.Forall₂ Valid segments names) :
    (flatten (segments.flatMap chunks)).filter (!isBlank ·) =
        names.flatMap (fun name => name.text.toList ++ [':', ':']) ↔
      (∀ c ∈ gapText segments, isBlank c = true) ∧
        ∀ name ∈ names, ∀ c ∈ name.text.toList, isBlank c = false := by
  constructor
  · intro same
    have solid : ∀ c ∈ names.flatMap (fun name => name.text.toList ++ [':', ':']),
        (!isBlank c) = true := by
      intro c member
      rw [← same, List.mem_filter] at member
      exact member.2
    refine ⟨?_, fun name known c member => ?_⟩
    · -- There are as many characters that are no blanks as the names and separators have.
      have counted := countP_text valid (!isBlank ·)
      rw [List.countP_eq_length_filter (l := flatten _), same, List.countP_eq_length.mpr solid] at counted
      have nothing := List.countP_eq_zero.mp (show (gapText segments).countP (!isBlank ·) = 0 by omega)
      simpa using nothing
    · have inText := solid c (List.mem_flatMap.mpr ⟨name, known, List.mem_append_left _ member⟩)
      simpa using inText
  · rintro ⟨blank, solid⟩
    induction valid with
    | nil => rfl
    | @cons segment name segments names first rest ih =>
        obtain ⟨solidName, solid⟩ := List.forall_mem_cons.mp solid
        rw [gapText_cons, List.forall_mem_append, flatten_append, List.forall_mem_append] at blank
        obtain ⟨⟨before, behind⟩, blank⟩ := blank
        have gone {text : List Char} (blank : ∀ c ∈ text, isBlank c = true) :
            text.filter (!isBlank ·) = [] :=
          List.filter_eq_nil_iff.mpr (by simpa using blank)
        have kept : name.text.toList.filter (!isBlank ·) = name.text.toList :=
          List.filter_eq_self.mpr (by simpa using solidName)
        have colons : [':', ':'].filter (!isBlank ·) = [':', ':'] := by decide
        rw [List.flatMap_cons, List.flatMap_cons, flatten_append, flatten_chunks, piece, flatten_append,
          flatten_cons, List.filter_append, ih blank solid]
        simp only [List.filter_append, first.text, gone before, gone behind, kept, colons,
          List.nil_append, List.append_nil]

section Blank

variable (valid : List.Forall₂ Valid segments names)
  (blank : ∀ c ∈ gapText segments, isBlank c = true)
  (solid : ∀ name ∈ names, ∀ c ∈ name.text.toList, isBlank c = false)

include valid blank

theorem pieces_of_blank :
    (segments.flatMap fun segment => NamespacePath.pieces segment.piece) = segments.map piece := by
  induction valid with
  | nil => rfl
  | @cons segment name segments names first rest ih =>
      rw [gapText_cons, List.forall_mem_append, flatten_append, List.forall_mem_append] at blank
      obtain ⟨⟨before, behind⟩, blank⟩ := blank
      have plain : ':' ∉ segment.piece := by
        rw [piece, flatten_append, flatten_cons, List.mem_append, List.mem_append]
        rintro (inGap | inName | inGap)
        · exact absurd (before _ inGap) (by decide)
        · exact absurd (isNamePart_of_mem_name first inName) (by decide)
        · exact absurd (behind _ inGap) (by decide)
      rw [List.flatMap_cons, NamespacePath.pieces_of_plain plain, ih blank]
      rfl

include solid

theorem filter_trim_of_blank :
    (segments.map fun segment => trim segment.piece).filter (!·.isEmpty) =
      names.map fun name => name.text.toList := by
  induction valid with
  | nil => rfl
  | @cons segment name segments names first rest ih =>
      obtain ⟨solidName, solid⟩ := List.forall_mem_cons.mp solid
      rw [gapText_cons, List.forall_mem_append] at blank
      rw [List.map_cons, List.map_cons, trim_of_blank (first.text ▸ solidName) blank.1,
        List.filter_cons_of_pos (by rfl), ih blank.2 solid, first.text]

/-- Segments with nothing but blanks around the names are read with these names. -/
theorem parse_of_blank {lead : List Chunk} (isLead : lead = [] ∨ lead = [separator]) :
    (NamespacePath.parse (String.ofList (flatten (lead ++ segments.flatMap chunks)))).segments =
      names.map (·.text) := by
  have nothing : ((lead.map fun _ => ([] : List Char)).map trim).filter (!·.isEmpty) = [] := by
    rcases isLead with rfl | rfl
    · rfl
    · rfl
  have spelled : ((segments.map piece).map trim).filter (!·.isEmpty) =
      names.map fun name => name.text.toList := by
    rw [List.map_map]
    exact filter_trim_of_blank valid blank solid
  have atEnd : ([[]].map trim).filter (!·.isEmpty) = [] := rfl
  rw [NamespacePath.parse, String.toList_ofList, pieces_qualifier isLead valid,
    pieces_of_blank valid blank, List.map_append, List.map_append, List.filter_append,
    List.filter_append, nothing, spelled, atEnd]
  simp

end Blank

/-- Segments that are read with the names of their tokens have nothing but blanks around the names. -/
theorem blank_of_map_trim (valid : List.Forall₂ Valid segments names)
    (narrow : Narrow (flatten (segments.flatMap chunks)))
    (same : (segments.map fun segment => String.ofList (trim segment.piece)) = names.map (·.text)) :
    (∀ c ∈ gapText segments, isBlank c = true) ∧
      ∀ name ∈ names, ∀ c ∈ name.text.toList, isBlank c = false := by
  induction valid with
  | nil => simp [gapText]
  | @cons segment name segments names first rest ih =>
      obtain ⟨(sameName : String.ofList (trim segment.piece) = name.text), same⟩ := List.cons.inj same
      have narrow' : Narrow segment.piece := fun c member => narrow c (by
        simp [flatten_chunks, member])
      obtain ⟨blank, solid⟩ := ih (fun c member => narrow c (by simp [member])) same
      rw [gapText_cons, List.forall_mem_append, List.forall_mem_cons]
      refine ⟨⟨blank_of_trim first narrow' (sameName ▸ first.isName), blank⟩, fun c member => ?_, solid⟩
      exact isBlank_of_mem_name first narrow' (first.text ▸ member)

end Segment

/-- Blanks aside, the text of the qualifier is a leading `::` and the names, each with a `::` behind it. -/
def Source.isPlain (source : Source) (node : Node) : Bool :=
  (source.slice node.qualifierSpan).toList.filter (!isBlank ·) ==
    (node.leading?.toList.flatMap fun _ => [':', ':']) ++
      node.namespaceNames.flatMap fun name => name.toList ++ [':', ':']

section Written

variable {source : Source} {node : Node} {chain : NameChain} {passed : List (NameToken × Span)}
  {whole front lead : List Chunk} {segments : List Segment} {gaps : List Chunk} {last : Chunk}
  {back : List Chunk} (written : chain.Written whole front lead segments gaps last back)
  (qualifies : node.Qualifies chain passed) (parts : flatten whole = source.text.toList)

include written qualifies parts

theorem Source.isPlain_iff {names : List Token}
    (valid : List.Forall₂ Segment.Valid (segments.take passed.length) names)
    (spelled : names.map (·.text) = node.namespaceNames) : source.isPlain node = true ↔
      (∀ c ∈ Segment.gapText (segments.take passed.length), isBlank c = true) ∧
        ∀ name ∈ names, ∀ c ∈ name.text.toList, isBlank c = false := by
  have leadText : (flatten lead).filter (!isBlank ·) =
      node.leading?.toList.flatMap fun _ => [':', ':'] := by
    rw [qualifies.leading, written.lead_eq]
    cases chain.leading with
    | none => rfl
    | some span => rfl
  have namesText : node.namespaceNames.flatMap (fun name => name.toList ++ [':', ':']) =
      names.flatMap fun name => name.text.toList ++ [':', ':'] := by
    rw [← spelled, List.flatMap_map]
  rw [Source.isPlain, beq_iff_eq, toList_slice_qualifier written qualifies parts, flatten_append,
    List.filter_append, leadText, namesText, List.append_cancel_left_eq, Segment.filter_text_iff valid]

/-- A plain qualifier is read with the names of its tokens. -/
theorem Source.read_of_plain (plain : source.isPlain node = true) :
    (WrittenQualifier.read source.text node.qualifierSpan).path.segments = node.namespaceNames := by
  obtain ⟨names, valid, spelled⟩ := written.namespaces qualifies
  obtain ⟨blank, solid⟩ := (isPlain_iff written qualifies parts valid spelled).mp plain
  rw [WrittenQualifier.read, slice_qualifier written qualifies parts, Option.getD_some,
    WrittenQualifier.readText_path,
    Segment.parse_of_blank valid blank solid written.isLead, spelled]

variable (reads : Reads true [] whole) (narrow : Narrow (source.slice node.qualifierSpan).toList)
  (splits : source.splitsAtTokens node.qualifierSpan = true)

include reads narrow splits

/-- As many names are read as there are tokens, and only a plain qualifier is read with their names. -/
theorem Source.plain_of_read :
    (WrittenQualifier.read source.text node.qualifierSpan).path.segments.length =
        node.namespaceNames.length ∧
      ((WrittenQualifier.read source.text node.qualifierSpan).path.segments = node.namespaceNames →
        source.isPlain node = true) := by
  obtain ⟨names, valid, spelled⟩ := written.namespaces qualifies
  have single := single_of_splits written qualifies parts reads splits
  have readsAs := readsAs_of_single written qualifies parts narrow single
  rw [toList_slice_qualifier written qualifies parts] at narrow
  rw [readsAs.path, ← spelled]
  refine ⟨by simpa using valid.length_eq, fun same => ?_⟩
  refine (isPlain_iff written qualifies parts valid spelled).mpr ?_
  exact Segment.blank_of_map_trim valid (fun c member => narrow c (by simp [member])) same

end Written

theorem Edit.ofReference_eq_none_iff {policy : Policy} {source : Source} {reference : Reference} :
    Edit.ofReference policy source reference = none ↔
      reference.declaration.path.isGlobal = true ∨
      Qualification.resolve reference.declaration.path reference.declaration.name
        (WrittenQualifier.read source.text reference.node.qualifierSpan).path reference.context
        policy = .unchanged := by
  unfold ofReference
  dsimp only
  split
  next isGlobal => simp [isGlobal]
  next inner =>
    split
    next same => simp [same]
    next other => simp [inner, other]
    next other => simp [inner, other]

namespace Source

section Complete

variable {source : Source} {policy : Policy} {catalog : Catalog} {reference : Reference}
  (member : reference ∈ source.references catalog)

include member

theorem untouched_of_plain
    (complete : reference.node.namespaceNames = reference.declaration.path.segments ∨
      reference.node.namespaceNames = Qualification.visible policy reference.declaration.path
        reference.declaration.name)
    (plain : source.isPlain reference.node = true) : Edit.ofReference policy source reference = none := by
  obtain ⟨whole, parts, reads⟩ := Chunk.exists_reads true source.text.toList
  obtain ⟨chain, passed, front, lead, segments, gaps, last, back, written, qualifies, -⟩ :=
    reference_written parts reads member
  have read := read_of_plain written qualifies parts plain
  refine Edit.ofReference_eq_none_iff.mpr (.inr ?_)
  cases excluded : policy.excludesNamespace reference.declaration.path ||
      policy.excludesSymbol reference.declaration.path reference.declaration.name with
  | true => rw [Qualification.resolve, if_pos excluded]
  | false =>
      refine (Qualification.resolve_eq_unchanged_iff _ _ (Bool.or_eq_false_iff.mp excluded)).mpr ?_
      rw [NamespacePath.ext_iff, read]
      exact complete.imp_right fun same => ⟨0, Nat.zero_le _, [], same.symm⟩

theorem plain_of_untouched
    (shown : reference.node.namespaceNames = Qualification.visible policy reference.declaration.path
      reference.declaration.name)
    (eligible : policy.excludesNamespace reference.declaration.path = false ∧
      policy.excludesSymbol reference.declaration.path reference.declaration.name = false)
    (nothing : Qualification.implied reference.declaration.path reference.context = 0)
    (narrow : Narrow (source.slice reference.node.qualifierSpan).toList)
    (splits : source.splitsAtTokens reference.node.qualifierSpan = true)
    (untouched : Edit.ofReference policy source reference = none) :
    source.isPlain reference.node = true := by
  obtain ⟨whole, parts, reads⟩ := Chunk.exists_reads true source.text.toList
  obtain ⟨chain, passed, front, lead, segments, gaps, last, back, written, qualifies, -⟩ :=
    reference_written parts reads member
  obtain ⟨size, plain⟩ := plain_of_read written qualifies parts reads narrow splits
  refine plain ?_
  rw [shown] at size ⊢
  rcases Edit.ofReference_eq_none_iff.mp untouched with isGlobal | unchanged
  · have noNames : Qualification.visible policy reference.declaration.path reference.declaration.name =
        [] := by
      rw [Qualification.visible, List.isEmpty_iff.mp isGlobal, List.take_nil]
    rw [noNames] at size ⊢
    exact List.length_eq_zero_iff.mp size
  · rcases (Qualification.resolve_eq_unchanged_iff _ _ eligible).mp unchanged with
      same | ⟨first, inside, ends⟩
    · rw [same, Qualification.visible, List.length_take] at size
      rw [same, Qualification.visible, List.take_of_length_le (by omega)]
    · rw [nothing, Nat.le_zero] at inside
      rw [inside, List.drop_zero] at ends
      exact (ends.eq_of_length size.symm).symm

end Complete

/-- A name with its path, or the visible part of it, in front is left alone if nothing but blanks stands
around the tokens of the qualifier. Outside the namespaces of the path it is written anew otherwise. -/
theorem complete_untouched (source : Source) (policy : Policy) (catalog : Catalog) {reference : Reference}
    (member : reference ∈ source.references catalog)
    (complete : reference.node.namespaceNames = reference.declaration.path.segments ∨
      reference.node.namespaceNames = Qualification.visible policy reference.declaration.path
        reference.declaration.name) :
    (source.isPlain reference.node = true → Edit.ofReference policy source reference = none) ∧
    (reference.node.namespaceNames = Qualification.visible policy reference.declaration.path
        reference.declaration.name →
      policy.excludesNamespace reference.declaration.path = false ∧
        policy.excludesSymbol reference.declaration.path reference.declaration.name = false →
      Qualification.implied reference.declaration.path reference.context = 0 →
      Narrow (source.slice reference.node.qualifierSpan).toList →
      source.splitsAtTokens reference.node.qualifierSpan = true →
      (Edit.ofReference policy source reference = none ↔ source.isPlain reference.node = true)) :=
  ⟨untouched_of_plain member complete, fun shown eligible nothing narrow splits =>
    ⟨plain_of_untouched member shown eligible nothing narrow splits, untouched_of_plain member complete⟩⟩

set_option maxRecDepth 100000 in
/-- The same name, laid out over two lines and with a comment in it. -/
theorem complete_untouched_comment :
    let source : Source := ⟨⟨"/p/a.cpp"⟩, "a.cpp",
      "std ::\n  chrono ::seconds s;\nstd::/*unit*/chrono::seconds t;\n"⟩
    let catalog :=
      Catalog.ofTexts [("namespace std \x7b namespace chrono \x7b struct seconds; \x7d \x7d", true)]
    (source.references catalog).map (fun reference => source.isPlain reference.node) = [true, false] ∧
    ∀ reference ∈ source.references catalog,
      reference.node.namespaceNames = reference.declaration.path.segments ∧
        (Edit.ofReference .standard source reference = none ↔
          source.isPlain reference.node = true) := by
  intro source catalog
  have evaluated :
      (source.references catalog).map (fun reference => source.isPlain reference.node) = [true, false] ∧
      ∀ reference ∈ source.references catalog,
        reference.node.namespaceNames = reference.declaration.path.segments ∧
        reference.node.namespaceNames = Qualification.visible .standard reference.declaration.path
          reference.declaration.name ∧
        (Policy.standard.excludesNamespace reference.declaration.path = false ∧
          Policy.standard.excludesSymbol reference.declaration.path reference.declaration.name =
            false) ∧
        Qualification.implied reference.declaration.path reference.context = 0 ∧
        Narrow (source.slice reference.node.qualifierSpan).toList ∧
        source.splitsAtTokens reference.node.qualifierSpan = true := by
    decide +kernel
  obtain ⟨plain, conditions⟩ := evaluated
  refine ⟨plain, fun reference member => ?_⟩
  obtain ⟨complete, shown, eligible, nothing, narrow, splits⟩ := conditions reference member
  exact ⟨complete, (complete_untouched source .standard catalog member (.inl complete)).2 shown eligible
    nothing narrow splits⟩

set_option maxRecDepth 100000 in
/-- A comment between the names of a complete path makes an edit. -/
theorem complete_edited : ¬∀ (source : Source) (policy : Policy) (files : List (String × Bool)),
    ∀ reference ∈ source.references (Catalog.ofTexts files),
      reference.node.namespaceNames = reference.declaration.path.segments ∨
        reference.node.namespaceNames = Qualification.visible policy reference.declaration.path
          reference.declaration.name →
      Edit.ofReference policy source reference = none := by
  intro claim
  have single := claim ⟨⟨"/p/a.cpp"⟩, "a.cpp", "std::/**/chrono::seconds s;"⟩ .standard
    [("namespace std\x7bnamespace chrono\x7bstruct seconds;\x7d\x7d", true)]
  revert single
  decide +kernel

end Source

end Requalify
