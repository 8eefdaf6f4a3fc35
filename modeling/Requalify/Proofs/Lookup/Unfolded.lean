import Requalify.Proofs.Lookup
import Requalify.Proofs.Lookup.Kept
import Requalify.Proofs.Outline.Unfolded

/-!
Lookup where one scope is unfolded into several. The added scopes are searched as well, so lookup finds the
same if no search ends in them. They own no using-statements and bind no names; what they may supply are
the members, namespaces and aliases of their namespaces, and directives of shared files.
-/

namespace Requalify

/-- What a mention refers to, without the way it is written. -/
def Resolution.referent : Resolution → Resolution
  | .found resolved => .found { resolved with node := default }
  | resolution => resolution

namespace Environment

structure Unfolds (unfolding : Unfolding) (old new : Environment) : Prop where
  outline : old.outline.Unfolds unfolding new.outline
  catalog : new.catalog = old.catalog
  usings : List.Forall₂ (fun item other : ResolvedUsing =>
    item.entry.Follows unfolding other.entry ∧ other.space = item.space) old.usings new.usings
  /-- The shared files have no directives in the namespaces of the added scopes. -/
  shared : ∀ level ∈ unfolding.added, new.sharedAt level = []

/-- The namespace or alias `name` that belongs to the namespace of a scope. -/
def namespaceIn? (environment : Environment) (name : String) (level : Nat) :
    Option (NamespacePath × SpecifierKind) :=
  let scope := environment.outline.scope level
  if scope.kind.isNamespace then environment.namespaceMember scope.path name else none

theorem namespaceAt_eq (environment : Environment) (offset : Nat) (name : String) (level : Nat) :
    environment.namespaceAt offset name level =
      match environment.aliasAt offset name level with
      | some space => some (space, .ofAlias)
      | none => environment.namespaceIn? name level :=
  rfl

/-- What a name without a qualifier refers to if it is found in one scope. -/
def unqualifiedIn? (environment : Environment) (scope offset : Nat) (name : String) (level : Nat) :
    Option Found :=
  match environment.imported offset name level with
  | some declaration => some ⟨declaration, false⟩
  | none =>
      let around := environment.outline.scope level
      if around.kind.isNamespace then
        environment.memberAt (environment.visibleDirectives scope offset) name around
      else none

theorem unqualified_eq (environment : Environment) (scope offset : Nat) (name : String) :
    environment.unqualified scope offset name =
      (environment.outline.ancestors scope).findSome? (environment.unqualifiedIn? scope offset name) :=
  rfl

/-- The searches for the first name of a mention do not end in some scopes. It is sought as a namespace if it
stands in a qualifier, and otherwise, or if there is no such namespace, as a member. -/
structure LooksPast (environment : Environment) (levels : List Nat) (mention : Mention) : Prop where
  namespaces : mention.chain.qualifiers ≠ [] →
    EndsOutside levels (environment.outline.ancestors mention.scope)
      (environment.namespaceIn? mention.chain.first.text)
  members : mention.chain.qualifiers = [] ∨
      environment.findNamespace mention.scope mention.chain.start mention.chain.first.text = none →
    EndsOutside levels (environment.outline.ancestors mention.scope)
      (environment.unqualifiedIn? mention.scope mention.chain.start mention.chain.first.text)

namespace Unfolds

variable {unfolding : Unfolding} {old new : Environment} (unfolds : old.Unfolds unfolding new)

include unfolds

theorem isBound_move (scope : Nat) (name : String) :
    new.isBound (unfolding.move scope) name = old.isBound scope name := by
  rw [isBound, isBound, unfolds.outline.ancestors_move, List.any_flatMap]
  congr 1
  funext level
  rw [Unfolding.spread, List.any_cons, unfolds.outline.binds_move]
  split
  next =>
    rw [List.any_eq_false.mpr fun other member => by simp [unfolds.outline.binds_added member],
      Bool.or_false]
  next => simp

section UsingsIn

variable (kind : UsingKind)

theorem usingsIn_move {offset offset' : Nat} (here : unfolding.same offset offset') (level : Nat) :
    List.Forall₂ (fun item other : ResolvedUsing =>
      item.entry.Follows unfolding other.entry ∧ other.space = item.space)
      (old.usingsIn level offset kind) (new.usingsIn (unfolding.move level) offset' kind) := by
  refine List.rel_filter ?_ unfolds.usings
  rintro item other ⟨follows, -⟩
  simp only [Bool.and_eq_true, beq_iff_eq, decide_eq_true_eq, follows.kind, follows.scope,
    unfolding.move_inj, unfolding.ascends follows.start here]

/-- The namespaces of statements that are chosen by what follows in both outlines. -/
theorem spaces_move {offset offset' : Nat} (here : unfolding.same offset offset') (level : Nat)
    (chosen : ScopedUsing → Bool)
    (respects : ∀ entry other, entry.Follows unfolding other → chosen other = chosen entry) :
    ((new.usingsIn (unfolding.move level) offset' kind).filter (chosen ·.entry)).map (·.space) =
      ((old.usingsIn level offset kind).filter (chosen ·.entry)).map (·.space) := by
  have pairs := List.rel_filter (p := (chosen ·.entry)) (q := (chosen ·.entry))
    (fun item other pair => by simp only [respects item.entry other.entry pair.1])
    (unfolds.usingsIn_move kind here level)
  exact map_eq_of_forall₂ pairs fun _ _ pair => pair.2

theorem usingsIn_added {level : Nat} (isAdded : level ∈ unfolding.added) (offset : Nat) :
    new.usingsIn level offset kind = [] := by
  rw [usingsIn, List.filter_eq_nil_iff]
  intro other member
  have scopes := map_eq_of_forall₂ unfolds.usings (f := fun item => unfolding.move item.entry.scope)
    (g := fun item => item.entry.scope) fun _ _ pair => pair.1.scope
  have place := List.mem_map_of_mem (f := fun item : ResolvedUsing => item.entry.scope) member
  rw [scopes] at place
  obtain ⟨item, -, eq⟩ := List.mem_map.mp place
  have apart : other.entry.scope ≠ level := by
    rintro rfl
    exact unfolding.move_not_mem_added item.entry.scope (eq ▸ isAdded)
  simp [apart]

end UsingsIn

theorem namespaceMember_eq (space : NamespacePath) (name : String) :
    new.namespaceMember space name = old.namespaceMember space name := by
  rw [namespaceMember, namespaceMember, unfolds.catalog]

theorem path_namespaceOf_move (level : Nat) :
    (new.outline.scope (new.outline.namespaceOf (unfolding.move level))).path =
      (old.outline.scope (old.outline.namespaceOf level)).path := by
  rw [unfolds.outline.namespaceOf_move, unfolds.outline.path]

theorem directivesAt_added {level : Nat} (isAdded : level ∈ unfolding.added) (offset : Nat) :
    new.directivesAt offset level = [] := by
  have shared := unfolds.shared level isAdded
  rw [sharedAt] at shared
  simp only [directivesAt, unfolds.usingsIn_added _ isAdded, List.filterMap_nil, List.nil_append]
  exact List.map_eq_nil_iff.mpr shared

theorem namespaceAt_added {level : Nat} (isAdded : level ∈ unfolding.added) (offset : Nat)
    (name : String) : new.namespaceAt offset name level = new.namespaceIn? name level := by
  have noAlias : new.aliasAt offset name level = none := by
    simp [aliasAt, unfolds.usingsIn_added _ isAdded]
  rw [namespaceAt_eq, noAlias]

theorem fileMember_eq (space : NamespacePath) (name : String) :
    new.fileMember space name = old.fileMember space name := by
  have through (outline : Outline) (entries : List ScopedDeclaration) (move : Nat → Nat) :
      (entries.findSome? fun declared =>
        if declared.name == name && outline.isInAnonymous (move declared.scope) then
          let owner := outline.scope (outline.namespaceOf (move declared.scope))
          if owner.path = space then
            some (⟨⟨name, space, declared.kind⟩, owner.kind == .anonymous⟩ : Found)
          else none
        else none) =
      (entries.map fun entry => (entry.name, entry.kind, move entry.scope)).findSome?
        fun (entry : String × DeclarationKind × Nat) =>
          if entry.1 == name && outline.isInAnonymous entry.2.2 then
            let owner := outline.scope (outline.namespaceOf entry.2.2)
            if owner.path = space then some ⟨⟨name, space, entry.2.1⟩, owner.kind == .anonymous⟩
            else none
          else none := by
    rw [List.findSome?_map]
    rfl
  have moved := through new.outline new.outline.declarations id
  simp only [id] at moved
  rw [fileMember, fileMember]
  dsimp only
  rw [moved, unfolds.outline.declarations, ← through]
  simp only [unfolds.outline.isInAnonymous_move, unfolds.outline.namespaceOf_move,
    unfolds.outline.path, unfolds.outline.kind]

theorem qualified_eq (space : NamespacePath) (name : String) :
    new.qualified space name = old.qualified space name := by
  rw [qualified, qualified, unfolds.fileMember_eq, unfolds.catalog]

theorem member_eq (space : NamespacePath) (name : String) :
    new.member space name = old.member space name := by
  rw [member, member, unfolds.qualified_eq]

theorem memberAt_move (directives : List VisibleDirective) (name : String) (level : Nat) :
    new.memberAt directives name (new.outline.scope (unfolding.move level)) =
      old.memberAt directives name (old.outline.scope level) := by
  simp only [memberAt, unfolds.outline.kind, unfolds.outline.path, unfolds.fileMember_eq,
    unfolds.catalog, unfolds.qualified_eq]

section Place

variable {offset offset' : Nat} (here : unfolding.same offset offset')

include here

theorem directivesAt_move (level : Nat) :
    new.directivesAt offset' (unfolding.move level) = old.directivesAt offset level := by
  have spaces : (new.usingsIn (unfolding.move level) offset' .directive).map (·.space) =
      (old.usingsIn level offset .directive).map (·.space) :=
    map_eq_of_forall₂ (unfolds.usingsIn_move .directive here level) fun _ _ pair => pair.2
  have written := congrArg (List.filterMap id) spaces
  rw [List.filterMap_map, List.filterMap_map, Function.id_comp] at written
  simp only [directivesAt, unfolds.path_namespaceOf_move, unfolds.outline.kind, unfolds.outline.path,
    unfolds.catalog, written]

theorem visibleDirectives_move (scope : Nat) :
    new.visibleDirectives (unfolding.move scope) offset' = old.visibleDirectives scope offset := by
  rw [visibleDirectives, visibleDirectives, unfolds.outline.ancestors_move]
  exact unfolding.flatMap_spread (fun level _ => unfolds.directivesAt_move here level)
    fun _ level isAdded => unfolds.directivesAt_added isAdded offset'

theorem aliasAt_move (name : String) (level : Nat) :
    new.aliasAt offset' name (unfolding.move level) = old.aliasAt offset name level := by
  have aliases := unfolds.spaces_move .namespaceAlias here level
    (·.newName == some name) fun entry other follows => by rw [follows.newName]
  have latest := congrArg List.getLast? aliases
  rw [List.getLast?_map, List.getLast?_map] at latest
  have through {items : List ResolvedUsing} :
      items.getLast?.bind (·.space) = (items.getLast?.map (·.space)).join := by
    cases items.getLast? <;> rfl
  simp only [aliasAt, through, latest]

theorem namespaceAt_move (name : String) (level : Nat) :
    new.namespaceAt offset' name (unfolding.move level) = old.namespaceAt offset name level := by
  simp only [namespaceAt, unfolds.aliasAt_move here, unfolds.outline.kind, unfolds.outline.path,
    unfolds.namespaceMember_eq]

/-- A name means the same namespace, if it is not found in an added scope. -/
theorem findNamespace_move {scope : Nat} {name : String}
    (outside : EndsOutside unfolding.added (new.outline.ancestors (unfolding.move scope))
      (new.namespaceIn? name)) :
    new.findNamespace (unfolding.move scope) offset' name = old.findNamespace scope offset name := by
  have inScopes : (new.outline.ancestors (unfolding.move scope)).findSome?
      (new.namespaceAt offset' name) =
        (old.outline.ancestors scope).findSome? (old.namespaceAt offset name) := by
    have withAliases : EndsOutside unfolding.added (new.outline.ancestors (unfolding.move scope))
        (new.namespaceAt offset' name) := by
      refine outside.mono (fun level isFound => ?_) fun level isAdded =>
        unfolds.namespaceAt_added isAdded offset' name
      rw [namespaceAt_eq]
      cases new.aliasAt offset' name level with
      | none => exact isFound
      | some space => rfl
    rw [unfolds.outline.ancestors_move] at withAliases ⊢
    exact unfolding.findSome?_spread (fun level _ => unfolds.namespaceAt_move here name level) withAliases
  rw [findNamespace, findNamespace, inScopes, unfolds.visibleDirectives_move here, unfolds.catalog]

theorem resolveWritten_move {scope : Nat} {target : WrittenPath}
    (outside : target.absolute = false → ∀ name ∈ target.path.segments.head?,
      EndsOutside unfolding.added (new.outline.ancestors (unfolding.move scope)) (new.namespaceIn? name)) :
    new.resolveWritten (unfolding.move scope) offset' target =
      old.resolveWritten scope offset target := by
  rw [resolveWritten, resolveWritten]
  cases parts : target.path.segments with
  | nil => rfl
  | cons first rest =>
      simp only [unfolds.namespaceMember_eq]
      cases absolute : target.absolute with
      | true => rfl
      | false =>
          rw [parts] at outside
          have found : new.findNamespace (unfolding.move scope) offset' first = _ :=
            unfolds.findNamespace_move here (outside absolute first (by simp))
          simp only [found]

theorem imported_move (name : String) (level : Nat) :
    new.imported offset' name (unfolding.move level) = old.imported offset name level := by
  have spaces := unfolds.spaces_move .declaration here level
    (·.target.last? == some name) fun entry other follows => by rw [follows.target]
  have through (environment : Environment) (items : List ResolvedUsing) :
      (items.findSome? fun item =>
        (item.space.bind (environment.qualified · name)).map (·.declaration)) =
      (items.map (·.space)).findSome? fun space =>
        (space.bind (environment.qualified · name)).map (·.declaration) := by
    rw [List.findSome?_map]
    rfl
  rw [imported, imported, through, spaces, ← through]
  simp only [unfolds.qualified_eq]

theorem unqualified_move {scope : Nat} {name : String}
    (outside : EndsOutside unfolding.added (new.outline.ancestors (unfolding.move scope))
      (new.unqualifiedIn? (unfolding.move scope) offset' name)) :
    new.unqualified (unfolding.move scope) offset' name = old.unqualified scope offset name := by
  rw [unqualified_eq, unqualified_eq]
  rw [unfolds.outline.ancestors_move] at outside ⊢
  refine unfolding.findSome?_spread (fun level _ => ?_) outside
  simp only [unqualifiedIn?, unfolds.visibleDirectives_move here, unfolds.imported_move here,
    unfolds.outline.kind, unfolds.memberAt_move]

end Place

/-- A statement names the same namespace. -/
theorem spaceOf_follows {entry other : ScopedUsing} (follows : entry.Follows unfolding other)
    (outside : ∀ name ∈ other.sought?, EndsOutside unfolding.added (new.outline.ancestors other.scope)
      (new.namespaceIn? name)) :
    new.spaceOf other = old.spaceOf entry := by
  rw [follows.scope] at outside
  have resolves {parts : List String} (prefixed : parts <+: entry.target.segments) :
      new.resolveWritten other.scope other.statement.start ⟨other.absolute, ⟨parts⟩⟩ =
        old.resolveWritten entry.scope entry.statement.start ⟨entry.absolute, ⟨parts⟩⟩ := by
    rw [follows.scope, follows.absolute]
    refine unfolds.resolveWritten_move follows.start fun relative name isFirst => outside name ?_
    obtain ⟨more, target⟩ := prefixed
    have relative : entry.absolute = false := relative
    rw [Option.mem_def] at isFirst
    have first : entry.target.segments.head? = some name := by
      rw [← target, List.head?_append, isFirst, Option.some_or]
    simp [ScopedUsing.sought?, follows.absolute, follows.target, relative, first]
  simp only [spaceOf, follows.kind, follows.target]
  cases entry.statement.kind with
  | directive => exact resolves (List.prefix_refl _)
  | namespaceAlias => exact resolves (List.prefix_refl _)
  | declaration =>
      have qualifier := resolves (List.dropLast_prefix _)
      dsimp only
      cases parts : entry.target.segments.dropLast with
      | nil => simp only [follows.absolute]
      | cons first rest =>
          rw [parts] at qualifier
          exact qualifier

theorem addUsing {entry other : ScopedUsing} (follows : entry.Follows unfolding other)
    (space : new.spaceOf other = old.spaceOf entry) :
    (old.addUsing entry).Unfolds unfolding (new.addUsing other) where
  outline := unfolds.outline
  catalog := unfolds.catalog
  usings := List.rel_append unfolds.usings (.cons ⟨follows, space⟩ .nil)
  shared := unfolds.shared

/-- One statement after the other. -/
theorem foldl_addUsing {entries others : List ScopedUsing}
    (follows : List.Forall₂ (ScopedUsing.Follows unfolding) entries others)
    (outside : ∀ other ∈ others, ∀ name ∈ other.sought?,
      EndsOutside unfolding.added (new.outline.ancestors other.scope) (new.namespaceIn? name)) :
    (entries.foldl Environment.addUsing old).Unfolds unfolding
      (others.foldl Environment.addUsing new) := by
  induction follows generalizing old new with
  | nil => exact unfolds
  | cons here _ ih =>
      obtain ⟨first, further⟩ := List.forall_mem_cons.mp outside
      exact ih (unfolds.addUsing here (unfolds.spaceOf_follows here first)) further

end Unfolds

/-- The using-statements of a file are resolved alike, if the sought names are not found in added scopes. -/
theorem ofOutline_unfolds {unfolding : Unfolding} {old new : Outline} {catalog : Catalog}
    (unfolds : old.Unfolds unfolding new)
    (shared : ∀ level ∈ unfolding.added, (ofOutline new catalog).sharedAt level = [])
    (outside : ∀ other ∈ new.usings, ∀ name ∈ other.sought?,
      EndsOutside unfolding.added (new.ancestors other.scope) ((ofOutline new catalog).namespaceIn? name)) :
    (ofOutline old catalog).Unfolds unfolding (ofOutline new catalog) := by
  obtain ⟨later, same⟩ := Environment.foldl_addUsing ⟨new, catalog, []⟩ new.usings
  rw [ofOutline, same] at shared outside
  have start : (⟨old, catalog, []⟩ : Environment).Unfolds unfolding ⟨new, catalog, []⟩ :=
    ⟨unfolds, rfl, .nil, shared⟩
  exact start.foldl_addUsing unfolds.usings outside

/-! Mentions. -/

theorem walk_isSome {environment : Environment} {scope offset : Nat} (space : NamespacePath)
    (passed : List Specifier) (left : List (NameToken × Span)) :
    (environment.walk scope offset (some space) passed left).1.isSome = true := by
  induction left generalizing space passed with
  | nil => rfl
  | cons pair rest ih =>
      rw [walk]
      cases environment.namespaceMember space pair.1.text with
      | none => rfl
      | some next => exact ih _ _

/-- Where no namespace has been read, the first name is none and all names are left. -/
theorem walk_nowhere {environment : Environment} {scope offset : Nat} {passed : List Specifier}
    {left : List (NameToken × Span)}
    (nowhere : (environment.walk scope offset none passed left).1 = none) :
    (environment.walk scope offset none passed left).2.2 = left ∧
      ∀ pair ∈ left.head?, environment.findNamespace scope offset pair.1.text = none := by
  cases left with
  | nil => exact ⟨rfl, by simp⟩
  | cons pair rest =>
      rw [walk] at nowhere ⊢
      cases found : environment.findNamespace scope offset pair.1.text with
      | none => exact ⟨rfl, by simp [found]⟩
      | some next =>
          have somewhere := @walk_isSome environment scope offset next.1
            (⟨pair.1, pair.2, next.2⟩ :: passed) rest
          simp only [found] at nowhere
          simp [nowhere] at somewhere

theorem Unfolds.walk_move {unfolding : Unfolding} {old new : Environment}
    (unfolds : old.Unfolds unfolding new) {offset offset' : Nat} (here : unfolding.same offset offset')
    {scope : Nat} {space : Option NamespacePath} {left left' : List (NameToken × Span)}
    (written : left'.map (·.1.text) = left.map (·.1.text))
    (outside : space = none → ∀ name ∈ (left'.map (·.1.text)).head?,
      EndsOutside unfolding.added (new.outline.ancestors (unfolding.move scope)) (new.namespaceIn? name))
    (passed passed' : List Specifier) :
    (new.walk (unfolding.move scope) offset' space passed' left').1 =
        (old.walk scope offset space passed left).1 ∧
      (new.walk (unfolding.move scope) offset' space passed' left').2.2.map (·.1.text) =
        (old.walk scope offset space passed left).2.2.map (·.1.text) := by
  induction left generalizing left' space passed passed' with
  | nil =>
      obtain rfl : left' = [] := by simpa using written
      exact ⟨rfl, rfl⟩
  | cons pair rest ih =>
      obtain ⟨pair', rest', rfl⟩ : ∃ pair' rest', left' = pair' :: rest' := by
        cases left' with
        | nil => simp at written
        | cons pair' rest' => exact ⟨pair', rest', rfl⟩
      obtain ⟨text, others⟩ : pair'.1.text = pair.1.text ∧
          rest'.map (·.1.text) = rest.map (·.1.text) := by simpa using written
      cases space with
      | none =>
          -- Only in front of the first namespace the scopes are searched.
          have found : new.findNamespace (unfolding.move scope) offset' pair.1.text = _ :=
            unfolds.findNamespace_move here (outside rfl pair.1.text (by simp [text]))
          simp only [walk, text, found]
          cases old.findNamespace scope offset pair.1.text with
          | none => exact ⟨rfl, written⟩
          | some next => exact ih others (by simp) _ _
      | some space =>
          simp only [walk, text, unfolds.namespaceMember_eq]
          cases old.namespaceMember space pair.1.text with
          | none => exact ⟨rfl, written⟩
          | some next => exact ih others (by simp) _ _

end Environment

namespace Mention.Follows

variable {unfolding : Unfolding} {old new : Mention} (follows : old.Follows unfolding new)

include follows

theorem leading : new.chain.leading.isSome = old.chain.leading.isSome :=
  congrArg (·.absolute) follows.written

theorem segments : new.chain.path.segments = old.chain.path.segments :=
  congrArg (·.path.segments) follows.written

theorem texts : new.chain.qualifiers.map (·.1.text) = old.chain.qualifiers.map (·.1.text) ∧
    new.chain.last.text = old.chain.last.text := by
  have same := follows.segments
  rw [NameChain.segments_path, NameChain.segments_path] at same
  obtain ⟨qualifiers, last⟩ := List.append_inj' same rfl
  exact ⟨qualifiers, by simpa using last⟩

theorem first : new.chain.first.text = old.chain.first.text := by
  have same := congrArg List.head? follows.segments
  rw [NameChain.head?_segments, NameChain.head?_segments] at same
  exact Option.some.inj same

end Mention.Follows

namespace Environment.Unfolds

variable {unfolding : Unfolding} {old new : Environment} (unfolds : old.Unfolds unfolding new)

include unfolds

/-- Where no namespace is read for a mention, its first name is looked up. -/
theorem unqualified_agrees {mention other : Mention} (follows : mention.Follows unfolding other)
    (relative : other.chain.leading = none) (looksPast : new.LooksPast unfolding.added other)
    (nowhere : (new.reading other).1 = none) :
    new.unqualified other.scope other.chain.start (new.sought other) =
      old.unqualified mention.scope mention.chain.start (new.sought other) := by
  have reading : new.reading other =
      new.walk other.scope other.chain.start none [] other.chain.qualifiers := by
    rw [Environment.reading, relative, Option.map_none]
  obtain ⟨all, noNamespace⟩ := walk_nowhere (reading ▸ nowhere)
  have isFirst : new.sought other = other.chain.first.text := by
    rw [sought, unread, reading, all]
    rfl
  have members := looksPast.members ?_
  · rw [isFirst]
    rw [follows.scope] at members ⊢
    exact unfolds.unqualified_move follows.start members
  · cases parts : other.chain.qualifiers with
    | nil => exact .inl rfl
    | cons pair rest =>
        have first : other.chain.first = pair.1 := by simp [NameChain.first, parts]
        rw [first]
        exact .inr (noNamespace pair (by simp [parts]))

theorem reading_agrees {mention other : Mention} (follows : mention.Follows unfolding other)
    (looksPast : other.chain.leading = none → new.LooksPast unfolding.added other) :
    (new.reading other).1 = (old.reading mention).1 ∧ new.sought other = old.sought mention := by
  obtain ⟨qualifiers, last⟩ := follows.texts
  have start : (other.chain.leading.map fun _ => NamespacePath.globalPath) =
      mention.chain.leading.map fun _ => NamespacePath.globalPath := by
    have leading := follows.leading
    cases left : mention.chain.leading <;> cases right : other.chain.leading <;> simp_all
  have namespaces : (other.chain.leading.map fun _ => NamespacePath.globalPath) = none →
      ∀ name ∈ (other.chain.qualifiers.map (·.1.text)).head?,
        EndsOutside unfolding.added (new.outline.ancestors (unfolding.move mention.scope))
          (new.namespaceIn? name) := by
    intro relative name isFirst
    have outside := (looksPast (Option.map_eq_none_iff.mp relative)).namespaces
    rw [follows.scope] at outside
    cases parts : other.chain.qualifiers with
    | nil => simp [parts] at isFirst
    | cons pair rest =>
        have text : other.chain.first.text = name := by
          simpa [parts, NameChain.first] using isFirst
        exact text ▸ outside (by simp [parts])
  obtain ⟨spaces, left⟩ := @walk_move unfolding old new unfolds _ _ follows.start mention.scope
    (other.chain.leading.map fun _ => NamespacePath.globalPath) _ _ qualifiers namespaces [] []
  rw [← follows.scope, start] at spaces
  rw [← follows.scope, start] at left
  have unread : (new.unread other).map (·.1.text) = (old.unread mention).map (·.1.text) := by
    rwa [Environment.unread, reading, Environment.unread, reading, start]
  refine ⟨by rwa [reading, reading, start], ?_⟩
  have heads := congrArg List.head? unread
  rw [List.head?_map, List.head?_map] at heads
  rw [sought, sought]
  cases first : (new.unread other).head? <;> cases first' : (old.unread mention).head? <;> simp_all

theorem find?_agrees {mention other : Mention} (follows : mention.Follows unfolding other)
    (looksPast : other.chain.leading = none → new.LooksPast unfolding.added other) :
    new.find? other = old.find? mention := by
  obtain ⟨spaces, name⟩ := unfolds.reading_agrees follows looksPast
  rw [find?, find?, ← spaces, ← name]
  cases nowhere : (new.reading other).1 with
  | some space => exact unfolds.member_eq space _
  | none =>
      cases relative : other.chain.leading with
      | none => exact unfolds.unqualified_agrees follows relative (looksPast relative) nowhere
      | some mark =>
          have somewhere : (new.reading other).1.isSome = true := by
            rw [reading, relative, Option.map_some]
            exact walk_isSome _ _ _
          simp [nowhere] at somewhere

/-- A mention means the same, if the searches for its first name do not end in added scopes. -/
theorem resolve_agrees {mention other : Mention} (follows : mention.Follows unfolding other)
    (looksPast : other.chain.leading = none → new.bindsFirst other = false →
      new.LooksPast unfolding.added other) :
    (new.resolve other).referent = (old.resolve mention).referent := by
  have bound : new.bindsFirst other = old.bindsFirst mention := by
    have isNone : other.chain.leading.isNone = mention.chain.leading.isNone := by
      rw [← Option.not_isSome, ← Option.not_isSome, follows.leading]
    rw [bindsFirst, bindsFirst, isNone, follows.scope, follows.first, unfolds.isBound_move]
  rw [resolve_eq, resolve_eq, ← bound]
  cases binds : new.bindsFirst other with
  | true => rfl
  | false =>
      rw [unfolds.find?_agrees follows fun relative => looksPast relative binds]
      cases old.find? mention with
      | none => rfl
      | some found => rfl

end Environment.Unfolds

end Requalify
