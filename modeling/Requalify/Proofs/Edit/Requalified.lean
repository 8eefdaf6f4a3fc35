import Requalify.Proofs.Edit.Names
import Requalify.Proofs.Edit.Spelling
import Requalify.Proofs.Edit.Written
import Requalify.Proofs.Lookup.Writable
import Requalify.Proofs.Token.Requalified

/-!
The edit of a reference, as it shows in the chunks of its text. If all separators in the text of the
qualifier are tokens, the names that are read of it are its segments, so the edit takes whole segments,
and those that it keeps spell the end of the path.
-/

namespace Requalify

/-- The names with a separator behind each, as tokens. -/
def nameLexemes (names : List String) : List (TokenKind × String) :=
  names.flatMap fun name => [(.identifier, name), (.scope, "::")]

namespace Segment

open Chunk Text

variable {segment : Segment} {name : Token} {segments : List Segment} {names : List Token}

theorem lexemes_chunks (valid : segment.Valid name) :
    segment.chunks.filterMap lexeme? = nameLexemes [name.text] := by
  have lexeme : segment.name.lexeme? = some (.identifier, name.text) := by
    rw [lexeme?, valid.kind, valid.text, String.ofList_toList]
    rfl
  rw [chunks, List.filterMap_append, lexemes_of_gaps fun gap member => (valid.before gap member).kind,
    List.filterMap_cons, lexeme, List.filterMap_append,
    lexemes_of_gaps fun gap member => (valid.behind gap member).kind]
  rfl

theorem lexemes_names (valid : List.Forall₂ Valid segments names) :
    (segments.flatMap chunks).filterMap lexeme? = nameLexemes (names.map (·.text)) := by
  induction valid with
  | nil => rfl
  | cons first rest ih =>
      rw [List.flatMap_cons, List.filterMap_append, lexemes_chunks first, ih]
      rfl

/-- Segments that are read as names have these names. -/
theorem map_text_eq (valid : List.Forall₂ Valid segments names)
    (narrow : Narrow (flatten (segments.flatMap chunks)))
    (areNames : ∀ segment ∈ segments, IsName (String.ofList (trim segment.piece))) :
    names.map (·.text) = segments.map fun segment => String.ofList (trim segment.piece) := by
  induction valid with
  | nil => rfl
  | @cons segment name segments names first rest ih =>
      obtain ⟨isName, areNames⟩ := List.forall_mem_cons.mp areNames
      have narrow' : Narrow segment.piece := fun c member => narrow c (by
        simp [flatten_chunks, member])
      rw [List.map_cons, List.map_cons, name_of_trim first narrow' isName rfl,
        ih (fun c member => narrow c (by simp [member])) areNames]

theorem countP_scope (valid : List.Forall₂ Valid segments names) (offset : Nat) :
    (tokens offset (segments.flatMap chunks)).countP Token.isScope = segments.length := by
  have scopes (offset : Nat) (chunks : List Chunk) : (tokens offset chunks).countP Token.isScope =
      (chunks.filterMap lexeme?).countP (·.1 == .scope) := by
    rw [← tokens_map_lexeme offset, List.countP_map]
    rfl
  have colons (names : List String) : (nameLexemes names).countP (·.1 == .scope) = names.length := by
    induction names with
    | nil => rfl
    | cons name names ih =>
        rw [nameLexemes, List.flatMap_cons, List.countP_append, ← nameLexemes, ih, List.length_cons,
          Nat.add_comm]
        rfl
  rw [scopes, lexemes_names valid, colons, List.length_map, valid.length_eq]

end Segment

/-- The separators in the text of the span are those that are tokens. -/
def Source.splitsAtTokens (source : Source) (span : Span) : Bool :=
  (NamespacePath.pieces (source.slice span).toList).length ==
    ((tokenize source.text).countP fun token => token.isScope && decide (span.Contains token.start)) + 1

theorem Text.Narrow.slice {source : Source} (narrow : Text.Narrow source.text.toList) (span : Span) :
    Text.Narrow (source.slice span).toList := by
  rw [Source.slice, String.toList_ofList]
  cases covered : Text.slice? source.text.toList span with
  | none => exact fun c member => absurd member List.not_mem_nil
  | some text => exact fun c member => narrow c (Text.mem_of_slice? covered member)

namespace Chunk

/-- The tokens that begin in a part of the text are those of its chunks. -/
theorem countP_within {whole front middle back : List Chunk} (parts : whole = front ++ (middle ++ back))
    {span : Span} (start : Text.byteLength (flatten front) = span.start)
    (stop : Text.byteLength (flatten (front ++ middle)) = span.stop) (counts : Token → Bool) :
    ((tokens 0 whole).countP fun token => counts token && decide (span.Contains token.start)) =
      (tokens span.start middle).countP counts := by
  have stop' : span.start + Text.byteLength (flatten middle) = span.stop := by
    rw [← start, ← stop, flatten_append, Text.byteLength_append]
  have nothing {tokens : List Token} (outside : ∀ token ∈ tokens, ¬span.Contains token.start) :
      (tokens.countP fun token => counts token && decide (span.Contains token.start)) = 0 :=
    List.countP_eq_zero.mpr fun token member => by simp [outside token member]
  have before : ∀ token ∈ tokens 0 front, ¬span.Contains token.start := by
    rintro token member ⟨from_, -⟩
    have upTo := (start_of_mem_tokens member).2
    omega
  have behind : ∀ token ∈ tokens (span.start + Text.byteLength (flatten middle)) back,
      ¬span.Contains token.start := by
    rintro token member ⟨-, upTo⟩
    have from_ := (start_of_mem_tokens member).1
    omega
  have within : ∀ token ∈ tokens span.start middle, span.Contains token.start := by
    intro token member
    obtain ⟨from_, upTo⟩ := start_of_mem_tokens member
    exact ⟨from_, by omega⟩
  rw [parts, tokens_append, tokens_append, Nat.zero_add, start, List.countP_append, List.countP_append,
    nothing before, nothing behind, Nat.zero_add, Nat.add_zero]
  exact List.countP_congr fun token member => by simp [within token member]

end Chunk

section Chain

open Chunk Segment Text

variable {source : Source} {chain : NameChain} {whole front lead : List Chunk} {segments : List Segment}
  {gaps : List Chunk} {last : Chunk} {back : List Chunk}

theorem NameChain.Written.span_stop
    (written : chain.Written whole front lead segments gaps last back) : chain.span.stop =
      byteLength (flatten (front ++ (lead ++ (segments.flatMap chunks ++ (gaps ++ [last]))))) := by
  have stop := written.stop
  have start := written.start
  rw [stop]
  rw [flatten_append front, byteLength_append] at stop
  exact Nat.max_eq_right (by omega)

theorem NameChain.Written.lead_eq
    (written : chain.Written whole front lead segments gaps last back) :
    lead = chain.leading.toList.map fun _ => separator := by
  rcases written.leads with ⟨none, rfl⟩ | ⟨isSome, rfl⟩
  · rw [none]
    rfl
  · obtain ⟨span, isLeading⟩ := Option.isSome_iff_exists.mp isSome
    rw [isLeading]
    rfl

theorem NameChain.Written.isLead
    (written : chain.Written whole front lead segments gaps last back) :
    lead = [] ∨ lead = [separator] :=
  written.leads.imp And.right And.right

theorem Segment.flatMap_split (segments : List Segment) (count : Nat) :
    segments.flatMap chunks =
      (segments.take count).flatMap chunks ++ (segments.drop count).flatMap chunks := by
  rw [← List.flatMap_append, List.take_append_drop]

theorem NameChain.Written.parts_at
    (written : chain.Written whole front lead segments gaps last back) (count : Nat) :
    whole = front ++ ((lead ++ (segments.take count).flatMap chunks) ++
      ((segments.drop count).flatMap chunks ++ (gaps ++ [last]) ++ back)) := by
  rw [written.parts, Segment.flatMap_split segments count]
  simp

section Qualifier

variable {node : Node} {passed : List (NameToken × Span)}
  (written : chain.Written whole front lead segments gaps last back)
  (qualifies : node.Qualifies chain passed)

include written qualifies

/-- The text of the qualifier: the first segments. -/
theorem NameChain.Written.qualifier : node.qualifierSpan.start = byteLength (flatten front) ∧
    node.qualifierSpan.stop =
      byteLength (flatten (front ++ (lead ++ (segments.take passed.length).flatMap chunks))) := by
  obtain ⟨left, parts⟩ := qualifies.first
  refine ⟨?_, ?_⟩
  · rw [qualifies.span, written.start]
    rfl
  · have stop := written.stops passed left parts.symm
    rw [qualifies.span, ← stop, ← written.start]
    refine Nat.max_eq_right ?_
    rw [flatten_append front, byteLength_append]
    exact Nat.le_add_right _ _

/-- The names of the first segments are those that are taken for namespaces. -/
theorem NameChain.Written.namespaces : ∃ names,
    List.Forall₂ Segment.Valid (segments.take passed.length) names ∧
      names.map (·.text) = node.namespaceNames := by
  obtain ⟨names, valid, spelled⟩ := written.valid
  obtain ⟨left, parts⟩ := qualifies.first
  refine ⟨names.take passed.length, List.forall₂_take passed.length valid, ?_⟩
  rw [List.map_take, spelled, qualifies.names, ← parts, List.map_append]
  exact List.take_left' (List.length_map _)

variable (parts : flatten whole = source.text.toList)

include parts

theorem slice_qualifier : Text.slice? source.text.toList node.qualifierSpan =
    some (flatten (lead ++ (segments.take passed.length).flatMap chunks)) := by
  obtain ⟨start, stop⟩ := written.qualifier qualifies
  rw [← parts, written.parts_at passed.length, flatten_append front, flatten_append (lead ++ _)]
  refine slice?_of_parts _ start.symm ?_
  rw [stop, flatten_append front, byteLength_append]

theorem toList_slice_qualifier : (source.slice node.qualifierSpan).toList =
    flatten (lead ++ (segments.take passed.length).flatMap chunks) := by
  rw [Source.slice, slice_qualifier written qualifies parts, Option.getD_some, String.toList_ofList]

/-- If all separators of a qualifier are tokens, there are as many pieces as segments. -/
theorem single_of_splits (reads : Reads true [] whole)
    (splits : source.splitsAtTokens node.qualifierSpan = true) :
    ((segments.take passed.length).flatMap fun segment => NamespacePath.pieces segment.piece) =
      (segments.take passed.length).map piece := by
  obtain ⟨names, valid, -⟩ := written.namespaces qualifies
  obtain ⟨start, stop⟩ := written.qualifier qualifies
  have leadCount : (tokens node.qualifierSpan.start lead).countP Token.isScope = lead.length := by
    rcases written.isLead with rfl | rfl
    · rfl
    · rfl
  rw [Source.splitsAtTokens, toList_slice_qualifier written qualifies parts,
    tokenize_of_reads parts reads,
    countP_within (written.parts_at passed.length) start.symm stop.symm, tokens_append,
    List.countP_append, leadCount, countP_scope valid, beq_iff_eq, pieces_qualifier written.isLead
      valid] at splits
  simp only [List.length_append, List.length_map, List.length_singleton] at splits
  exact pieces_of_length (by omega)

theorem readsAs_of_single (narrow : Narrow (source.slice node.qualifierSpan).toList)
    (single : ((segments.take passed.length).flatMap fun segment =>
      NamespacePath.pieces segment.piece) = (segments.take passed.length).map piece) :
    ReadsAs (WrittenQualifier.read source.text node.qualifierSpan) node.qualifierSpan.start lead
      (segments.take passed.length) := by
  obtain ⟨names, valid, -⟩ := written.namespaces qualifies
  rw [toList_slice_qualifier written qualifies parts] at narrow
  rw [WrittenQualifier.read, slice_qualifier written qualifies parts, Option.getD_some]
  refine readText_readsAs written.isLead valid (fun c member => narrow c ?_)
    single node.qualifierSpan
  rw [flatten_append]
  exact List.mem_append_right _ member

end Qualifier

theorem toList_qualifier {declared : NamespacePath} {first stop : Nat}
    (nonempty : (declared.segments.take stop).drop first ≠ []) :
    (declared.qualifier first stop).toList =
      ((declared.segments.take stop).drop first).flatMap fun name => name.toList ++ [':', ':'] := by
  rw [NamespacePath.qualifier_eq_join nonempty, String.toList_join, List.flatMap_map]
  exact List.flatMap_congr fun name _ => by simp [NamespacePath.separator]

/-- The patch of a reference puts names in place of the first segments, and these names and those of the
other segments are the ones to spell. -/
theorem Edit.exists_region {policy : Policy} {reference : Reference} {edit : Edit} {taken : List Segment}
    (readsAs : ReadsAs (WrittenQualifier.read source.text reference.node.qualifierSpan)
      reference.node.qualifierSpan.start lead taken)
    (asked : ofReference policy source reference = some edit) :
    ∃ names replaced, names ≠ [] ∧
      names ++ (taken.drop replaced).map (fun segment => String.ofList (trim segment.piece)) =
        Qualification.spelled policy reference.declaration.path reference.declaration.name
          reference.context ∧
      edit.patch.text.toList = names.flatMap (fun name => name.toList ++ [':', ':']) ∧
      edit.patch.offset = reference.node.qualifierSpan.start +
        byteLength (flatten (lead ++ blanksAhead (taken.take replaced))) ∧
      edit.patch.length = byteLength (flatten (region (taken.take replaced))) := by
  obtain ⟨stop, replaced, beyond, visible, spelling, patch⟩ := ofReference_patch asked
  have within := policy.visibleLength_le reference.declaration.path reference.declaration.name
  have named : (reference.declaration.path.segments.take stop).drop
      (Qualification.implied reference.declaration.path reference.context) ≠ [] := by
    rw [← List.length_pos_iff, List.length_drop, List.length_take]
    have size : reference.declaration.path.length = reference.declaration.path.segments.length := rfl
    omega
  rw [readsAs.path, ← List.map_drop] at spelling
  refine ⟨_, replaced, named, spelling, ?_⟩
  rw [← toList_qualifier named, patch]
  split
  next nothing =>
    subst nothing
    exact ⟨rfl, by simpa [blanksAhead, Patch.insert] using readsAs.insertionPoint, rfl⟩
  next =>
    obtain ⟨start, stop⟩ := readsAs.leadingSpan replaced
    refine ⟨rfl, start, ?_⟩
    rw [flatMap_chunks, ← List.append_assoc, flatten_append (lead ++ _), byteLength_append] at stop
    simp only [Patch.replace, Span.length]
    omega

/-- The edit of a reference puts names in place of segments, and what it keeps of the qualifier has the
tokens of the other names. -/
theorem Edit.exists_requalified {policy : Policy} {reference : Reference} {edit : Edit}
    {passed : List (NameToken × Span)} (parts : flatten whole = source.text.toList)
    (reads : Reads true [] whole)
    (narrow : Narrow (source.slice reference.node.qualifierSpan).toList)
    (written : chain.Written whole front lead segments gaps last back)
    (qualifies : reference.node.Qualifies chain passed)
    (writable : reference.declaration.path.Writable)
    (splits : source.splitsAtTokens reference.node.qualifierSpan = true)
    (asked : ofReference policy source reference = some edit) :
    ∃ names blanks region kept,
      (segments.take passed.length).flatMap chunks = blanks ++ region ++ kept ∧
      Requalified whole chain.span edit.patch names front lead blanks region
        (kept ++ ((segments.drop passed.length).flatMap chunks ++ (gaps ++ [last]))) back ∧
      nameLexemes names ++ kept.filterMap lexeme? =
        nameLexemes (Qualification.spelled policy reference.declaration.path
          reference.declaration.name reference.context) := by
  obtain ⟨start, -⟩ := written.qualifier qualifies
  obtain ⟨tokens, taken, -⟩ := written.namespaces qualifies
  have single := single_of_splits written qualifies parts reads splits
  have readsAs := readsAs_of_single written qualifies parts narrow single
  rw [toList_slice_qualifier written qualifies parts] at narrow
  have chainParts := Segment.flatMap_split segments passed.length
  generalize segments.take passed.length = taken' at *
  generalize (segments.drop passed.length).flatMap chunks = others at *
  obtain ⟨names, replaced, named, spelling, text, offset, length⟩ := exists_region readsAs asked
  have inPath : ∀ name ∈ Qualification.spelled policy reference.declaration.path
      reference.declaration.name reference.context, IsName name := fun name member =>
    writable name (List.mem_of_mem_take (List.mem_of_mem_drop member))
  have areNames : ∀ name ∈ names, IsName name := fun name member =>
    inPath name (spelling ▸ List.mem_append_left _ member)
  have qualifierParts : taken'.flatMap chunks = blanksAhead (taken'.take replaced) ++
      region (taken'.take replaced) ++ (taken'.drop replaced).flatMap chunks := by
    rw [← flatMap_chunks, ← List.flatMap_append, List.take_append_drop]
  refine ⟨names, blanksAhead (taken'.take replaced), region (taken'.take replaced),
    (taken'.drop replaced).flatMap chunks, qualifierParts,
    ⟨?_, written.start, ?_, ?_, length.symm, ?_, areNames, named, by simp, ?_,
      blank_of_mem_blanksAhead (List.forall₂_take replaced taken), region_ends _⟩, ?_⟩
  · rw [written.parts, chainParts, qualifierParts]
    simp
  · rw [written.span_stop, chainParts, qualifierParts]
    simp
  · rw [offset, start, flatten_append front, byteLength_append]
  · rw [text, flatten_ofNames areNames]
  · rcases written.leads with ⟨-, rfl⟩ | ⟨-, isLead⟩
    · refine .inl ⟨rfl, ?_⟩
      have opens := written.opens rfl
      rw [chainParts, qualifierParts] at opens
      simpa using opens
    · exact .inr isLead
  · rw [lexemes_names (List.forall₂_drop replaced taken), map_text_eq (List.forall₂_drop replaced taken),
      ← spelling, nameLexemes, nameLexemes, nameLexemes, List.flatMap_append]
    · refine fun c member => narrow c ?_
      rw [qualifierParts]
      simp [member]
    · intro segment member
      refine inPath _ (spelling ▸ List.mem_append_right _ ?_)
      exact List.mem_map_of_mem (f := fun segment : Segment => String.ofList (trim segment.piece)) member

end Chain

/-- The token belongs to the written names of the qualifier. -/
def Reference.qualifies (reference : Reference) (token : Token) : Bool :=
  decide (reference.node.firstName.span.start ≤ token.start) &&
    decide (token.start < reference.node.qualifierSpan.stop)

/-- The tokens of the names in front of the symbol after its edit. -/
def Reference.spelledLexemes (policy : Policy) (reference : Reference) : List (TokenKind × String) :=
  nameLexemes (Qualification.spelled policy reference.declaration.path reference.declaration.name
    reference.context)

/-- What the edit of a reference makes of a token: in front of the first name stand the spelled ones, and
the written ones go. -/
def Reference.rewritten (policy : Policy) (reference : Reference) (token : Token) :
    List (TokenKind × String) :=
  (if reference.node.firstName.span.start = token.start then reference.spelledLexemes policy else []) ++
    if reference.qualifies token then [] else [token.lexeme]

section Lexemes

open Chunk Text

variable {policy : Policy} {reference : Reference}

theorem Chunk.tokens_pairwise (offset : Nat) (chunks : List Chunk) :
    (tokens offset chunks).Pairwise fun left right => left.start < right.start := by
  induction chunks generalizing offset with
  | nil => exact List.Pairwise.nil
  | cons chunk chunks ih =>
      rw [tokens]
      cases kind : chunk.kind with
      | none => exact ih _
      | some kind =>
          refine List.pairwise_cons.mpr ⟨fun token member => ?_, ih _⟩
          have positive := chunk.byteLength_text_pos
          have behind := (start_of_mem_tokens member).1
          simp only
          omega

theorem flatMap_rewritten {offset : Nat} {qualifier left : List Chunk} {first : Token}
    {more : List Token} (tokensEq : tokens offset (qualifier ++ left) = first :: more)
    (isFirst : first.start = reference.node.firstName.span.start)
    (stop : reference.node.qualifierSpan.stop = offset + byteLength (flatten qualifier)) :
    (tokens offset (qualifier ++ left)).flatMap (reference.rewritten policy) =
      reference.spelledLexemes policy ++ left.filterMap lexeme? := by
  let others (token : Token) := if reference.qualifies token then [] else [token.lexeme]
  have ordered := tokens_pairwise offset (qualifier ++ left)
  rw [tokensEq, List.pairwise_cons] at ordered
  have atFirst : (first :: more).flatMap (reference.rewritten policy) =
      reference.spelledLexemes policy ++ (first :: more).flatMap others := by
    have later : more.flatMap (reference.rewritten policy) = more.flatMap others := by
      refine List.flatMap_congr fun token member => ?_
      have behind := ordered.1 token member
      rw [Reference.rewritten, if_neg (by omega), List.nil_append]
    rw [List.flatMap_cons, List.flatMap_cons, later, Reference.rewritten, if_pos isFirst.symm,
      List.append_assoc]
  have gone : (tokens offset qualifier).flatMap others = [] := by
    refine List.flatMap_eq_nil_iff.mpr fun token member => if_pos ?_
    have upTo := (start_of_mem_tokens member).2
    have from_ : first.start ≤ token.start := by
      have known : token ∈ first :: more := by
        rw [← tokensEq, tokens_append]
        exact List.mem_append_left _ member
      rcases List.mem_cons.mp known with rfl | inMore
      · exact Nat.le_refl _
      · exact Nat.le_of_lt (ordered.1 token inMore)
    rw [Reference.qualifies, Bool.and_eq_true, decide_eq_true_eq, decide_eq_true_eq]
    omega
  have kept (offset : Nat) (beyond : reference.node.qualifierSpan.stop ≤ offset) :
      (tokens offset left).flatMap others = left.filterMap lexeme? := by
    rw [← tokens_map_lexeme offset, List.map_eq_flatMap]
    refine List.flatMap_congr fun token member => if_neg ?_
    have from_ := (start_of_mem_tokens member).1
    rw [Reference.qualifies, Bool.and_eq_true, decide_eq_true_eq, decide_eq_true_eq]
    omega
  rw [tokensEq, atFirst, ← tokensEq, tokens_append, List.flatMap_append, gone, List.nil_append,
    kept _ (Nat.le_of_eq stop)]

/-- The tokens of a chain with the edit of its reference. -/
theorem Requalified.lexemes {whole : List Chunk} {chain : Span} {patch : Patch} {names : List String}
    {front lead blanks region kept left back : List Chunk}
    (requalified : Requalified whole chain patch names front lead blanks region (kept ++ left) back)
    (stop : reference.node.qualifierSpan.stop =
      byteLength (flatten (front ++ (lead ++ (blanks ++ region) ++ kept))))
    (spelling : nameLexemes names ++ kept.filterMap lexeme? = reference.spelledLexemes policy)
    {first : Token} {more : List Token}
    (tokensEq : tokens (byteLength (flatten (front ++ lead))) (blanks ++ region ++ (kept ++ left)) =
      first :: more)
    (isFirst : first.start = reference.node.firstName.span.start) :
    (tokens (byteLength (flatten front)) (lead ++ (blanks ++ region) ++ (kept ++ left))).flatMap
        (reference.rewritten policy) =
      (lead ++ (blanks ++ ofNames names) ++ (kept ++ left)).filterMap lexeme? := by
  have place : byteLength (flatten (front ++ lead)) =
      byteLength (flatten front) + byteLength (flatten lead) := by
    rw [flatten_append, byteLength_append]
  have ahead : (tokens (byteLength (flatten front)) lead).flatMap (reference.rewritten policy) =
      lead.filterMap lexeme? := by
    rw [← tokens_map_lexeme (byteLength (flatten front)), List.map_eq_flatMap]
    refine List.flatMap_congr fun token member => ?_
    have upTo := (start_of_mem_tokens member).2
    have inTokens : first ∈ tokens _ _ := tokensEq ▸ List.mem_cons_self
    have from_ := (start_of_mem_tokens inTokens).1
    have stays : reference.qualifies token = false := by
      rw [Reference.qualifies, Bool.and_eq_false_iff, decide_eq_false_iff_not]
      omega
    rw [Reference.rewritten, stays, if_neg (by omega), if_neg (by decide)]
    rfl
  have blank : blanks.filterMap lexeme? = [] :=
    lexemes_of_gaps fun chunk member => (requalified.blank chunk member).1
  have qualifierParts : blanks ++ region ++ (kept ++ left) = blanks ++ region ++ kept ++ left := by simp
  rw [qualifierParts] at tokensEq
  have behind : _ = reference.spelledLexemes policy ++ _ :=
    flatMap_rewritten tokensEq isFirst (by rw [stop]; simp; omega)
  rw [List.append_assoc lead, tokens_append, List.flatMap_append, ahead, ← place, qualifierParts, behind,
    ← spelling]
  have names : (ofNames names).filterMap lexeme? = nameLexemes names :=
    lexemes_ofNames requalified.areNames
  simp [List.filterMap_append, blank, names]

end Lexemes

end Requalify
