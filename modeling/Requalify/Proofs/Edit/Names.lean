import Requalify.Proofs.Edit.Node

/-!
The names of a node. Those that lookup takes for namespaces are the first names of the written chain, the
qualifier ends right behind them, and the name behind it is that of the declaration.
-/

namespace Requalify

namespace Node

/-- The leading `::` of a node. -/
def leading? (node : Node) : Option Span :=
  node.qualifier?.bind (·.leading)

/-- The names in front of a node that are taken for namespaces. -/
def namespaceNames (node : Node) : List String :=
  (((node.qualifier?.map (·.specifiers)).getD []).filter (·.kind != .ofType)).map (·.name.text)

/-- The node has the leading `::` and the first names of the chain, and its qualifier ends behind them. -/
structure Qualifies (node : Node) (chain : NameChain) (passed : List (NameToken × Span)) : Prop where
  first : passed <+: chain.qualifiers
  leading : node.leading? = chain.leading
  names : node.namespaceNames = passed.map (·.1.text)
  span : node.qualifierSpan = Span.between chain.start (chain.stopBehind passed)

end Node

/-- The name behind the first names of a chain. -/
def NameChain.nameBehind (chain : NameChain) (passed : List (NameToken × Span)) : NameToken :=
  ((chain.qualifiers.drop passed.length).head?.map (·.1)).getD chain.last

namespace NameQualifier

def places (specifiers : List Specifier) : List (NameToken × Span) :=
  specifiers.map fun specifier => (specifier.name, specifier.separator)

/-- A qualifier spans its namespaces, without a type at its end. -/
theorem span?_of_namespaces {qualifier : NameQualifier} {chain : NameChain} {spaces : List Specifier}
    (begins : qualifier.Begins chain) (written : qualifier.leading.isSome ∨ qualifier.specifiers ≠ [])
    (plain : ∀ specifier ∈ spaces, specifier.kind ≠ .ofType)
    (parts : qualifier.specifiers = spaces ∨
      ∃ named, named.kind = .ofType ∧ qualifier.specifiers = spaces ++ [named]) :
    qualifier.span? = some (Span.between chain.start (chain.stopBehind (places spaces))) := by
  have start := start?_of_begins begins written
  obtain ⟨leading, specifiers⟩ := qualifier
  obtain rfl : leading = chain.leading := begins.1
  unfold span?
  rw [start]
  rcases parts with rfl | ⟨named, isType, rfl⟩
  · have ends : endsInType ⟨chain.leading, specifiers⟩ = false := by
      unfold endsInType
      cases last : specifiers.getLast? with
      | none => rfl
      | some specifier => simpa using plain specifier (List.mem_of_getLast? last)
    have stop : stop? ⟨chain.leading, specifiers⟩ = some (chain.stopBehind (places specifiers)) := by
      unfold stop?
      rw [NameChain.stopBehind, places, List.getLast?_map]
      cases last : specifiers.getLast? with
      | some specifier => rfl
      | none =>
          obtain rfl := List.getLast?_eq_none_iff.mp last
          obtain ⟨span, leading⟩ := Option.isSome_iff_exists.mp (written.resolve_right (by simp))
          change chain.leading = some span at leading
          simp [leading]
    rw [ends]
    simp [stop]
  · have ends : endsInType ⟨chain.leading, spaces ++ [named]⟩ = true := by
      simp [endsInType, isType]
    have stop : innerStop? ⟨chain.leading, spaces ++ [named]⟩ =
        some (chain.stopBehind (places spaces)) := by
      have nonempty : spaces ++ [named] ≠ [] := by simp
      unfold innerStop?
      rw [NameChain.stopBehind, places, List.getLast?_map]
      split
      next nothing => exact absurd nothing nonempty
      next =>
        rw [List.dropLast_concat, start]
        cases last : spaces.getLast? with
        | some specifier => rfl
        | none => cases chain.leading <;> rfl
    rw [ends]
    simp [stop]

end NameQualifier

namespace Node

variable {node : Node} {chain : NameChain}

theorem qualifies_of_some {qualifier : NameQualifier} {spaces : List Specifier}
    (isQualifier : node.qualifier? = some qualifier) (begins : qualifier.Begins chain)
    (written : qualifier.leading.isSome ∨ qualifier.specifiers ≠ [])
    (plain : ∀ specifier ∈ spaces, specifier.kind ≠ .ofType)
    (parts : qualifier.specifiers = spaces ∨
      ∃ named, named.kind = .ofType ∧ qualifier.specifiers = spaces ++ [named]) :
    node.Qualifies chain (NameQualifier.places spaces) := by
  have kept : spaces.filter (·.kind != .ofType) = spaces :=
    List.filter_eq_self.mpr fun specifier member => by simpa using plain specifier member
  obtain ⟨front, spacesOnly⟩ : spaces <+: qualifier.specifiers ∧
      qualifier.specifiers.filter (·.kind != .ofType) = spaces := by
    rcases parts with same | ⟨named, isType, same⟩
    · rw [same]
      exact ⟨List.prefix_refl _, kept⟩
    · rw [same, List.filter_append, kept]
      exact ⟨List.prefix_append _ _, by simp [isType]⟩
  refine ⟨(front.map _).trans begins.2, ?_, ?_, ?_⟩
  · rw [leading?, isQualifier, Option.bind_some, begins.1]
  · rw [namespaceNames, isQualifier, Option.map_some, Option.getD_some, spacesOnly, NameQualifier.places,
      List.map_map]
    rfl
  · rw [qualifierSpan, isQualifier, Option.bind_some,
      NameQualifier.span?_of_namespaces begins written plain parts]

theorem qualifies_of_none (isBare : node.qualifier? = none) (leading : chain.leading = none)
    (start : node.start = chain.start) : node.Qualifies chain [] := by
  refine ⟨List.nil_prefix, ?_, ?_, ?_⟩
  · rw [leading?, isBare, leading]
    rfl
  · rw [namespaceNames, isBare]
    rfl
  · rw [qualifierSpan, isBare, start]
    simp [NameChain.stopBehind, leading, Span.between, Span.point]

end Node

namespace Environment

variable {environment : Environment}

theorem namespaceMember_kind {space inner : NamespacePath} {name : String} {kind : SpecifierKind}
    (found : environment.namespaceMember space name = some (inner, kind)) : kind ≠ .ofType := by
  unfold namespaceMember at found
  split at found
  next =>
    obtain ⟨-, rfl⟩ := Prod.mk.inj (Option.some.inj found)
    decide
  next =>
    obtain ⟨target, -, same⟩ := Option.map_eq_some_iff.mp found
    obtain ⟨-, rfl⟩ := Prod.mk.inj same
    decide

theorem findNamespace_kind {scope offset : Nat} {name : String} {space : NamespacePath}
    {kind : SpecifierKind} (found : environment.findNamespace scope offset name = some (space, kind)) :
    kind ≠ .ofType := by
  unfold findNamespace at found
  split at found
  next result here =>
    obtain rfl := Option.some.inj found
    obtain ⟨level, -, isNamespace⟩ := List.exists_of_findSome?_eq_some here
    unfold namespaceAt at isNamespace
    split at isNamespace
    next =>
      obtain ⟨-, rfl⟩ := Prod.mk.inj (Option.some.inj isNamespace)
      decide
    next =>
      dsimp only at isNamespace
      split at isNamespace
      next => exact namespaceMember_kind isNamespace
      next => simp at isNamespace
  next =>
    obtain ⟨inner, -, same⟩ := Option.map_eq_some_iff.mp found
    obtain ⟨-, rfl⟩ := Prod.mk.inj same
    decide

theorem walk_kinds {scope offset : Nat} {space : Option NamespacePath} {passed : List Specifier}
    {names : List (NameToken × Span)} (plain : ∀ specifier ∈ passed, specifier.kind ≠ .ofType) :
    ∀ specifier ∈ (environment.walk scope offset space passed names).2.1,
      specifier.kind ≠ .ofType := by
  fun_induction walk environment scope offset space passed names with
  | case1 => simpa using plain
  | case2 space passed name separator rest next inner kind found ih =>
      refine ih (List.forall_mem_cons.mpr ⟨?_, plain⟩)
      simp only [next] at found
      split at found
      next => exact findNamespace_kind found
      next => exact namespaceMember_kind found
  | case3 => simpa using plain

/-- The node of a mention is qualified with the names that are read as namespaces. -/
theorem nodeOf_qualifies {mention : Mention} {specifiers : List Specifier}
    {left : List (NameToken × Span)} (kind : DeclarationKind)
    (plain : ∀ specifier ∈ specifiers, specifier.kind ≠ .ofType)
    (parts : NameQualifier.places specifiers ++ left = mention.chain.qualifiers) :
    (nodeOf mention specifiers left kind).Qualifies mention.chain
      (NameQualifier.places specifiers) := by
  cases left with
  | cons next rest =>
      obtain ⟨named, separator⟩ := next
      have begins : NameQualifier.Begins ⟨mention.chain.leading,
          specifiers ++ [⟨named, separator, .ofType⟩]⟩ mention.chain :=
        ⟨rfl, rest, by simp [← parts, NameQualifier.places]⟩
      exact Node.qualifies_of_some rfl begins (.inr (by simp)) plain
        (.inr ⟨⟨named, separator, .ofType⟩, rfl, rfl⟩)
  | nil =>
      have spells := nodeOf_spells kind parts
      obtain ⟨isQualifier, -, -⟩ := nodeOf_parts mention specifiers kind
      rw [List.append_nil] at parts
      split at isQualifier
      next nonempty =>
        exact Node.qualifies_of_some isQualifier ⟨rfl, parts ▸ List.prefix_refl _⟩
          (by simpa using nonempty) plain (.inl rfl)
      next bare =>
        simp only [Bool.or_eq_true, not_or, Bool.not_eq_true, Option.isSome_eq_false_iff,
          Option.isNone_iff_eq_none, Bool.not_eq_false', List.isEmpty_iff] at bare
        obtain ⟨leading, rfl⟩ := bare
        exact Node.qualifies_of_none isQualifier leading spells.start

theorem resolve_qualifies {mention : Mention} {resolved : Resolved}
    (located : environment.resolve mention = .found resolved) :
    ∃ passed, resolved.node.Qualifies mention.chain passed ∧
      (mention.chain.nameBehind passed).text = resolved.declaration.name := by
  obtain ⟨parts, node⟩ := node_of_resolve located
  have plain : ∀ specifier ∈ (environment.reading mention).2.1, specifier.kind ≠ .ofType :=
    walk_kinds (by simp)
  refine ⟨NameQualifier.places (environment.reading mention).2.1,
    node ▸ nodeOf_qualifies resolved.declaration.kind plain parts, ?_⟩
  rw [(findsAtHome_of_resolve located).1, sought, NameChain.nameBehind, ← parts, NameQualifier.places,
    List.drop_left]

end Environment

end Requalify
