import Requalify.Proofs.Edit.Qualifier
import Requalify.Proofs.Lookup
import Requalify.Proofs.Token.Chain

/-!
Where the node of a mention stands. It begins where the written chain begins, and its qualifier ends
there or behind a separator of the chain, whatever the lookup has taken its names for.
-/

namespace Requalify

namespace NameQualifier

/-- The qualifier has the leading separator of the chain and its first names. -/
def Begins (qualifier : NameQualifier) (chain : NameChain) : Prop :=
  qualifier.leading = chain.leading ∧
    (qualifier.specifiers.map fun specifier => (specifier.name, specifier.separator)) <+:
      chain.qualifiers

section Begins

variable {qualifier : NameQualifier} {chain : NameChain} (begins : qualifier.Begins chain)

include begins

theorem start?_of_begins (written : qualifier.leading.isSome ∨ qualifier.specifiers ≠ []) :
    qualifier.start? = some chain.start := by
  obtain ⟨leading, rest, parts⟩ := begins
  unfold start? NameChain.start
  rw [← leading, ← parts]
  cases leadingEq : qualifier.leading with
  | some span => rfl
  | none =>
      cases specifiers : qualifier.specifiers with
      | nil => simp [leadingEq, specifiers] at written
      | cons specifier others => rfl

theorem specifiers_pause {specifiers : List Specifier} {specifier : Specifier}
    (first : specifiers <+: qualifier.specifiers) (last : specifiers.getLast? = some specifier) :
    chain.Pauses specifier.separator.stop := by
  refine ⟨specifiers.map fun specifier => (specifier.name, specifier.separator),
    (first.map _).trans begins.2, ?_⟩
  simp [NameChain.stopBehind, last]

theorem leading_pauses {span : Span} (leading : qualifier.leading = some span) :
    chain.Pauses span.stop := by
  refine ⟨[], List.nil_prefix, ?_⟩
  simp [NameChain.stopBehind, ← begins.1, leading]

theorem exists_stop? (written : qualifier.leading.isSome ∨ qualifier.specifiers ≠ []) :
    ∃ stop, qualifier.stop? = some stop ∧ chain.Pauses stop := by
  unfold stop?
  cases last : qualifier.specifiers.getLast? with
  | some specifier => exact ⟨_, rfl, specifiers_pause begins (List.prefix_refl _) last⟩
  | none =>
      cases leading : qualifier.leading with
      | some span => exact ⟨_, rfl, leading_pauses begins leading⟩
      | none => simp [leading, List.getLast?_eq_none_iff.mp last] at written

theorem exists_innerStop? (written : qualifier.leading.isSome ∨ qualifier.specifiers ≠ []) :
    ∃ stop, qualifier.innerStop? = some stop ∧ chain.Pauses stop := by
  unfold innerStop?
  split
  next => exact exists_stop? begins written
  next =>
    split
    next specifier last => exact ⟨_, rfl, specifiers_pause begins (List.dropLast_prefix _) last⟩
    next span _ leading => exact ⟨_, rfl, leading_pauses begins leading⟩
    next leading =>
      refine ⟨_, start?_of_begins begins written, [], List.nil_prefix, ?_⟩
      simp [NameChain.stopBehind, ← begins.1, leading]

theorem exists_span? (written : qualifier.leading.isSome ∨ qualifier.specifiers ≠ []) :
    ∃ offset, qualifier.span? = some (Span.between chain.start offset) ∧ chain.Pauses offset := by
  have start := start?_of_begins begins written
  obtain ⟨stop, isStop, stopPauses⟩ := exists_stop? begins written
  obtain ⟨inner, isInner, innerPauses⟩ := exists_innerStop? begins written
  unfold span?
  rw [start, isStop, isInner]
  cases qualifier.endsInType with
  | true => exact ⟨inner, rfl, innerPauses⟩
  | false => exact ⟨stop, rfl, stopPauses⟩

end Begins

end NameQualifier

namespace Node

def name : Node → NameToken
  | expression _ name => name
  | typeUse written => written.name
  | nested _ member => member

/-- The first name that is written, of the qualifier if it has names. -/
def firstName (node : Node) : NameToken :=
  ((node.qualifier?.bind (·.specifiers.head?)).map (·.name)).getD node.name

/-- The node begins where the chain does, with the same name, and so does its qualifier, which ends at a
pause. -/
structure Spells (node : Node) (chain : NameChain) : Prop where
  start : node.start = chain.start
  firstName : node.firstName = chain.first
  qualifier : ∃ offset, node.qualifierSpan = Span.between chain.start offset ∧ chain.Pauses offset

/-- A node that is written with the first names of a chain, and with its last name if these are none. -/
theorem spells_of_specifiers {node : Node} {chain : NameChain} (specifiers : List Specifier)
    (qualifier : node.qualifier? = if chain.leading.isSome || !specifiers.isEmpty then
      some ⟨chain.leading, specifiers⟩ else none)
    (start : node.start = (node.qualifier?.bind (·.start?)).getD node.name.span.start)
    (first : (specifiers.map fun specifier => (specifier.name, specifier.separator)) <+:
      chain.qualifiers)
    (last : specifiers = [] → chain.qualifiers = [] ∧ node.name = chain.last) :
    node.Spells chain := by
  have begins : NameQualifier.Begins ⟨chain.leading, specifiers⟩ chain := ⟨rfl, first⟩
  have firstEq : (specifiers.head?.map (·.name)).getD node.name = chain.first := by
    cases specifiers with
    | nil =>
        obtain ⟨single, same⟩ := last rfl
        simp [NameChain.first, single, same]
    | cons specifier specifiers =>
        obtain ⟨others, parts⟩ := first
        simp [NameChain.first, ← parts]
  split at qualifier
  next nonempty =>
    have written : chain.leading.isSome ∨ specifiers ≠ [] := by simpa using nonempty
    obtain ⟨offset, span, pauses⟩ := NameQualifier.exists_span? begins written
    refine ⟨?_, ?_, offset, ?_, pauses⟩
    · rw [start, qualifier, Option.bind_some, NameQualifier.start?_of_begins begins written,
        Option.getD_some]
    · rw [firstName, qualifier, Option.bind_some, firstEq]
    · rw [qualifierSpan, qualifier, Option.bind_some, span]
  next bare =>
    simp only [Bool.or_eq_true, not_or, Bool.not_eq_true, Option.isSome_eq_false_iff,
      Option.isNone_iff_eq_none, Bool.not_eq_false', List.isEmpty_iff] at bare
    obtain ⟨leading, rfl⟩ := bare
    obtain ⟨single, same⟩ := last rfl
    have startEq : node.start = chain.start := by
      rw [start, qualifier, same, NameChain.start, leading, single]
      rfl
    refine ⟨startEq, ?_, chain.start, ?_, [], List.nil_prefix, ?_⟩
    · rw [firstName, qualifier]
      exact firstEq
    · rw [qualifierSpan, qualifier, startEq]
      simp [Span.between, Span.point]
    · simp [NameChain.stopBehind, leading]

end Node

namespace Environment

theorem walk_parts (environment : Environment) (scope offset : Nat) (space : Option NamespacePath)
    (passed : List Specifier) (names : List (NameToken × Span)) :
    let (_, specifiers, left) := environment.walk scope offset space passed names
    (specifiers.map fun specifier => (specifier.name, specifier.separator)) ++ left =
      (passed.reverse.map fun specifier => (specifier.name, specifier.separator)) ++ names := by
  fun_induction walk environment scope offset space passed names with
  | case1 space passed => rfl
  | case2 space passed name separator rest next inner kind found ih =>
      simpa using ih
  | case3 space passed name separator rest next missing => rfl

/-- A type node is written with its qualifier in front of its name. -/
theorem written_parts (qualifier : Option NameQualifier) (keyword : Bool) (name : NameToken) :
    let written : TypeNode :=
      if qualifier.isSome || keyword then .elaborated qualifier (.named name) else .named name
    written.qualifier? = qualifier ∧ written.name = name ∧
      written.start = (qualifier.bind (·.start?)).getD name.span.start := by
  cases qualifier with
  | some qualifier => exact ⟨rfl, rfl, rfl⟩
  | none =>
      cases keyword with
      | true => exact ⟨rfl, rfl, rfl⟩
      | false => exact ⟨rfl, rfl, rfl⟩

/-- The node of a mention all of whose qualifiers are read as namespaces. -/
theorem nodeOf_parts (mention : Mention) (specifiers : List Specifier) (kind : DeclarationKind) :
    let node := nodeOf mention specifiers [] kind
    node.qualifier? = (if mention.chain.leading.isSome || !specifiers.isEmpty then
        some ⟨mention.chain.leading, specifiers⟩ else none) ∧
      node.name = mention.chain.last ∧
      node.start = (node.qualifier?.bind (·.start?)).getD node.name.span.start := by
  simp only [nodeOf]
  generalize (if mention.chain.leading.isSome || !specifiers.isEmpty then
    some (NameQualifier.mk mention.chain.leading specifiers) else none) = qualifier
  obtain ⟨isQualifier, name, start⟩ :=
    written_parts qualifier (mention.lead == .typeKeyword) mention.chain.last
  have written {node : Node} (isQualifier : node.qualifier? = qualifier)
      (name : node.name = mention.chain.last)
      (start : node.start = (qualifier.bind (·.start?)).getD mention.chain.last.span.start) :
      node.qualifier? = qualifier ∧ node.name = mention.chain.last ∧
        node.start = (node.qualifier?.bind (·.start?)).getD node.name.span.start :=
    ⟨isQualifier, name, by rw [start, isQualifier, name]⟩
  split
  next => exact written isQualifier name start
  next => exact written isQualifier name start
  next =>
    split
    next => exact written isQualifier name start
    next => exact ⟨rfl, rfl, rfl⟩

theorem nodeOf_spells {mention : Mention} {specifiers : List Specifier}
    {left : List (NameToken × Span)} (kind : DeclarationKind)
    (parts : (specifiers.map fun specifier => (specifier.name, specifier.separator)) ++ left =
      mention.chain.qualifiers) : (nodeOf mention specifiers left kind).Spells mention.chain := by
  cases left with
  | cons first rest =>
      obtain ⟨named, separator⟩ := first
      refine Node.spells_of_specifiers (specifiers ++ [⟨named, separator, .ofType⟩]) ?_ rfl ?_ ?_
      · simp [nodeOf, Node.qualifier?]
      · exact ⟨rest, by simp [← parts]⟩
      · simp
  | nil =>
      rw [List.append_nil] at parts
      obtain ⟨isQualifier, name, start⟩ := nodeOf_parts mention specifiers kind
      refine Node.spells_of_specifiers specifiers isQualifier start ?_ ?_
      · exact parts ▸ List.prefix_refl _
      · rintro rfl
        exact ⟨parts.symm, name⟩

/-- The node of a mention that is found is made of the names that lookup has read, and these and the names
it has not read are the ones that are written. -/
theorem node_of_resolve {environment : Environment} {mention : Mention} {resolved : Resolved}
    (found : environment.resolve mention = .found resolved) :
    ((environment.reading mention).2.1.map fun specifier => (specifier.name, specifier.separator)) ++
        environment.unread mention = mention.chain.qualifiers ∧
      resolved.node = nodeOf mention (environment.reading mention).2.1 (environment.unread mention)
        resolved.declaration.kind := by
  refine ⟨environment.walk_parts mention.scope mention.chain.start _ [] mention.chain.qualifiers, ?_⟩
  rw [resolve_eq] at found
  split at found
  next => simp at found
  next =>
    split at found
    next => simp at found
    next =>
      obtain rfl := Resolution.found.inj found
      rfl

theorem resolve_spells {environment : Environment} {mention : Mention} {resolved : Resolved}
    (found : environment.resolve mention = .found resolved) :
    resolved.node.Spells mention.chain := by
  obtain ⟨parts, node⟩ := node_of_resolve found
  exact node ▸ nodeOf_spells resolved.declaration.kind parts

end Environment

end Requalify
