import Requalify.Proofs.Lookup.Sight
import Requalify.Proofs.Lookup.Termination
import Requalify.Proofs.Outline.Paths

/-!
Lookup on demand through the statements of a file. The target of a statement is sought through statements in
front of it only, so by the offset of a statement its namespace is settled. Resolving all statements again and
again therefore gives what resolving each on demand gives, whatever the order of the list; if the list is in
the order of the text, it is enough to go through it once.
-/

namespace Requalify

/-- The statements are those of the file, and in front of an offset they are resolved as on demand. -/
structure Environment.Agrees (environment : Environment) (offset : Nat) : Prop where
  entries : environment.usings.map (·.entry) = environment.outline.usings
  spaces : ∀ item ∈ environment.usings, item.entry.statement.start < offset →
    EndsWith (OnDemand.spaceOf environment.outline environment.catalog · item.entry) item.space

namespace OnDemand

theorem findSomeM?_map {α β γ : Type} (f : β → Option (Option γ)) (g : α → β) (items : List α) :
    (items.map g).findSomeM? f = items.findSomeM? (f ∘ g) := by
  induction items with
  | nil => rfl
  | cons item items ih =>
      rw [List.map_cons, List.findSomeM?_cons, List.findSomeM?_cons, ih]
      rfl

/-! Scopes. -/

section Scopes

variable {outline : Outline} (ordered : outline.ParentsFirst)

include ordered

theorem ancestors_ends (id : Nat) : EndsWith (ancestors outline · id) (outline.ancestors id) := by
  induction id using Nat.strongRecOn with
  | ind id ih =>
      apply EndsWith.of_succ
      simp only [ancestors]
      cases found : (outline.scope id).parent with
      | none =>
          rw [Outline.ancestors_of_root found]
          exact .const _
      | some parent =>
          have smaller := ordered id parent found
          rw [Outline.ancestors_of_parent found smaller]
          exact (ih parent smaller).bind (.const _)

theorem namespaceOf_ends (id : Nat) : EndsWith (namespaceOf outline · id) (outline.namespaceOf id) :=
  (ancestors_ends ordered id).bind (.const _)

theorem isInAnonymous_ends (id : Nat) : EndsWith (isInAnonymous outline · id) (outline.isInAnonymous id) :=
  (ancestors_ends ordered id).bind (.const _)

end Scopes

variable {environment : Environment} (ordered : environment.outline.ParentsFirst)

include ordered in
theorem isBound_ends (scope : Nat) (name : String) :
    EndsWith (isBound environment.outline · scope name) (environment.isBound scope name) :=
  (ancestors_ends ordered scope).bind (.const _)

theorem sharedDirectives_ends (level : Nat) :
    EndsWith (sharedDirectives environment.outline environment.catalog · level)
      (environment.sharedAt level) := by
  have nominated : EndsWith (fun limit => do
      let nominated ← (environment.catalog.directivesIn (environment.outline.scope level).path).mapM
        (target environment.catalog limit (environment.outline.scope level).path)
      return nominated.filterMap id)
      ((environment.catalog.directivesIn (environment.outline.scope level).path).filterMap
        (environment.catalog.resolve? (environment.outline.scope level).path)) := by
    filter_upwards [nominated_ends environment.catalog (environment.outline.scope level).path] with
      limit areNominated
    rw [areNominated]
    simp [List.filterMap_map]
  cases isKind : (environment.outline.scope level).kind with
  | global => simpa only [sharedDirectives, Environment.sharedAt, isKind] using nominated
  | named => simpa only [sharedDirectives, Environment.sharedAt, isKind] using nominated
  | _ =>
      simp only [sharedDirectives, Environment.sharedAt, isKind]
      exact .const _

/-! Statements in front of an offset. -/

section Statements

variable {offset : Nat} (agrees : environment.Agrees offset)

include agrees

theorem usingsIn_eq (level : Nat) (kind : UsingKind) :
    usingsIn environment.outline level offset kind =
      (environment.usingsIn level offset kind).map (·.entry) := by
  rw [usingsIn, ← agrees.entries, List.filter_map]
  rfl

theorem spaceOf_usingsIn (level : Nat) (kind : UsingKind) :
    ∀ item ∈ environment.usingsIn level offset kind,
      EndsWith (spaceOf environment.outline environment.catalog · item.entry) item.space := by
  intro item member
  obtain ⟨inUsings, front⟩ := List.mem_filter.mp member
  simp only [Bool.and_eq_true, decide_eq_true_eq] at front
  exact agrees.spaces item inUsings front.2

include ordered

theorem directivesAt_ends (level : Nat) :
    EndsWith (directivesAt environment.outline environment.catalog · offset level)
      (environment.directivesAt offset level) := by
  apply EndsWith.of_succ
  have written : EndsWith (fun limit => (usingsIn environment.outline level offset .directive).mapM
      (spaceOf environment.outline environment.catalog limit))
      ((environment.usingsIn level offset .directive).map (·.space)) := by
    simp only [usingsIn_eq agrees, List.mapM_map]
    exact EndsWith.mapM (spaceOf_usingsIn agrees level .directive)
  filter_upwards [written, sharedDirectives_ends level, namespaceOf_ends ordered level] with
    limit areWritten areShared isOwner
  rw [directivesAt, areWritten, areShared, isOwner]
  simp only [Option.bind_eq_bind, Option.bind_some, List.filterMap_map, Function.id_comp]
  rfl

theorem visibleDirectives_ends (scope : Nat) :
    EndsWith (visibleDirectives environment.outline environment.catalog · scope offset)
      (environment.visibleDirectives scope offset) := by
  apply EndsWith.of_succ
  simp only [visibleDirectives]
  refine (ancestors_ends ordered scope).bind ?_
  exact (EndsWith.mapM fun level _ => directivesAt_ends ordered agrees level).bind (.const _)

omit ordered in
theorem namespaceAt_ends (name : String) (level : Nat) :
    EndsWith (namespaceAt environment.outline environment.catalog · offset name level)
      (environment.namespaceAt offset name level) := by
  apply EndsWith.of_succ
  have space : EndsWith (fun limit => ((usingsIn environment.outline level offset .namespaceAlias).filter
      (·.newName == some name)).getLast?.elim (some none)
        (spaceOf environment.outline environment.catalog limit)) (environment.aliasAt offset name level) := by
    simp only [usingsIn_eq agrees, List.filter_map, List.getLast?_map, Function.comp_def]
    rw [Environment.aliasAt]
    cases last : ((environment.usingsIn level offset .namespaceAlias).filter
      (·.entry.newName == some name)).getLast? with
    | none => exact .const _
    | some item =>
        have inUsings := List.mem_of_mem_filter (List.mem_of_getLast? last)
        exact spaceOf_usingsIn agrees level _ item inUsings
  simp only [namespaceAt]
  rw [Environment.namespaceAt]
  refine space.bind ?_
  cases environment.aliasAt offset name level with
  | some space => exact .const _
  | none =>
      dsimp only
      split
      next => exact namespaceMember_ends environment _ name
      next => exact .const _

theorem findNamespace_ends (scope : Nat) (name : String) :
    EndsWith (findNamespace environment.outline environment.catalog · scope offset name)
      (environment.findNamespace scope offset name) := by
  apply EndsWith.of_succ
  simp only [findNamespace]
  refine (ancestors_ends ordered scope).bind ?_
  refine (EndsWith.findSomeM? fun level _ => namespaceAt_ends agrees name level).bind ?_
  rw [Environment.findNamespace]
  cases (environment.outline.ancestors scope).findSome? (environment.namespaceAt offset name) with
  | some result => exact .const _
  | none => exact (visibleDirectives_ends ordered agrees scope).bind (.const _)

theorem resolveWritten_ends (scope : Nat) (target : WrittenPath) :
    EndsWith (resolveWritten environment.outline environment.catalog · scope offset target)
      (environment.resolveWritten scope offset target) := by
  apply EndsWith.of_succ
  simp only [resolveWritten]
  rw [Environment.resolveWritten]
  cases target.path.segments with
  | nil => exact .const _
  | cons first rest =>
      have step (space : NamespacePath) (name : String) :
          EndsWith (fun limit => do
            let found ← namespaceMember environment.catalog limit space name
            return found.map (·.1)) ((environment.namespaceMember space name).map (·.1)) :=
        (namespaceMember_ends environment space name).bind (.const _)
      have further (start : Option (NamespacePath × SpecifierKind)) := EndsWith.foldlM step rest (start.map (·.1))
      simp only [Option.bind_map] at further
      cases target.absolute with
      | true => exact (namespaceMember_ends environment _ first).bind (further _)
      | false => exact (findNamespace_ends ordered agrees scope first).bind (further _)

end Statements

include ordered

theorem spaceOf_ends {entry : ScopedUsing} (agrees : environment.Agrees entry.statement.start) :
    EndsWith (spaceOf environment.outline environment.catalog · entry) (environment.spaceOf entry) := by
  apply EndsWith.of_succ
  simp only [spaceOf]
  rw [Environment.spaceOf]
  cases entry.statement.kind with
  | directive => exact resolveWritten_ends ordered agrees _ _
  | namespaceAlias => exact resolveWritten_ends ordered agrees _ _
  | declaration =>
      dsimp only
      cases entry.target.segments.dropLast with
      | nil => exact .const _
      | cons first rest => exact resolveWritten_ends ordered agrees _ _

/-! Names. -/

theorem fileMember_ends (space : NamespacePath) (name : String) :
    EndsWith (fileMember environment.outline · space name) (environment.fileMember space name) := by
  refine EndsWith.findSomeM? fun declared _ => ?_
  filter_upwards [isInAnonymous_ends ordered declared.scope, namespaceOf_ends ordered declared.scope] with
    limit isIn isOwner
  rw [isIn, isOwner]
  simp only [Option.bind_eq_bind, Option.bind_some]
  split
  next => split <;> rfl
  next => rfl

theorem qualified_ends (space : NamespacePath) (name : String) :
    EndsWith (qualified environment.outline environment.catalog · space name)
      (environment.qualified space name) := by
  rw [Environment.qualified]
  refine (fileMember_ends ordered space name).bind ?_
  cases environment.fileMember space name with
  | some found => exact .const _
  | none => exact (find_ends space).bind (.const _)

theorem member_ends (space : NamespacePath) (name : String) :
    EndsWith (member environment.outline environment.catalog · space name)
      (environment.member space name) := by
  rw [Environment.member]
  refine (qualified_ends ordered space name).bind ?_
  cases environment.qualified space name <;> exact .const _

theorem memberAt_ends (directives : List VisibleDirective) (name : String) (scope : Scope) :
    EndsWith (memberAt environment.outline environment.catalog · directives name scope)
      (environment.memberAt directives name scope) := by
  have nominated := EndsWith.findSomeM? fun directive
    (_ : directive ∈ directives.filter (·.placement == scope.path)) =>
      qualified_ends ordered directive.nominated name
  rw [Environment.memberAt]
  refine (fileMember_ends ordered scope.path name).bind ?_
  cases environment.fileMember scope.path name with
  | some found => exact .const _
  | none =>
      dsimp only
      split
      next => exact nominated
      next =>
        refine (find_ends scope.path).bind ?_
        cases environment.catalog.find? scope.path name with
        | some declaration => exact .const _
        | none => exact nominated

variable {offset : Nat} (agrees : environment.Agrees offset)

include agrees

theorem imported_ends (name : String) (level : Nat) :
    EndsWith (imported environment.outline environment.catalog · offset name level)
      (environment.imported offset name level) := by
  simp only [imported, usingsIn_eq agrees, List.filter_map, findSomeM?_map]
  rw [Environment.imported]
  refine EndsWith.findSomeM? fun item member => ?_
  refine (spaceOf_usingsIn agrees level _ item (List.mem_of_mem_filter member)).bind ?_
  cases item.space with
  | none => exact .const _
  | some space => exact (qualified_ends ordered space name).bind (.const _)

theorem unqualified_ends (scope : Nat) (name : String) :
    EndsWith (unqualified environment.outline environment.catalog · scope offset name)
      (environment.unqualified scope offset name) := by
  refine (visibleDirectives_ends ordered agrees scope).bind ?_
  refine (ancestors_ends ordered scope).bind ?_
  refine EndsWith.findSomeM? fun level _ => ?_
  refine (imported_ends ordered agrees name level).bind ?_
  cases environment.imported offset name level with
  | some declaration => exact .const _
  | none =>
      dsimp only
      split
      next => exact memberAt_ends ordered _ name _
      next => exact .const _

theorem walk_ends (scope : Nat) (space : Option NamespacePath) (passed : List Specifier)
    (names : List (NameToken × Span)) :
    EndsWith (walk environment.outline environment.catalog · scope offset space passed names)
      (environment.walk scope offset space passed names) := by
  induction names generalizing space passed with
  | nil => exact .const _
  | cons name names ih =>
      obtain ⟨name, separator⟩ := name
      simp only [walk]
      rw [Environment.walk.eq_def]
      cases space with
      | none =>
          refine (findNamespace_ends ordered agrees scope name.text).bind ?_
          dsimp only
          rcases environment.findNamespace scope offset name.text with _ | ⟨next, kind⟩
          · exact .const _
          · exact ih (some next) _
      | some space =>
          refine (namespaceMember_ends environment space name.text).bind ?_
          dsimp only
          rcases environment.namespaceMember space name.text with _ | ⟨next, kind⟩
          · exact .const _
          · exact ih (some next) _

omit agrees

theorem resolve_ends {mention : Mention} (agrees : environment.Agrees mention.chain.start) :
    EndsWith (resolve environment.outline environment.catalog · mention) (environment.resolve mention) := by
  rw [Environment.resolve]
  refine (isBound_ends ordered mention.scope mention.chain.first.text).bind ?_
  dsimp only
  split
  next => exact .const _
  next =>
    refine (walk_ends ordered agrees mention.scope _ [] mention.chain.qualifiers).bind ?_
    obtain ⟨space, specifiers, left⟩ := environment.walk mention.scope mention.chain.start
      (mention.chain.leading.map fun _ => NamespacePath.globalPath) [] mention.chain.qualifiers
    cases space with
    | none =>
        refine (unqualified_ends ordered agrees mention.scope _).bind ?_
        dsimp only
        cases environment.unqualified mention.scope mention.chain.start _ <;> exact .const _
    | some space =>
        refine (member_ends ordered space _).bind ?_
        dsimp only
        cases environment.member space _ <;> exact .const _

end OnDemand

namespace Environment

/-- The statements, resolved again and again as long as `rounds` lasts. The first time none of them has a
namespace, and each further time they are looked up through what has been found before. -/
def settle (outline : Outline) (catalog : Catalog) : Nat → Environment
  | 0 => ⟨outline, catalog, outline.usings.map (⟨·, none⟩)⟩
  | rounds + 1 =>
      ⟨outline, catalog, outline.usings.map fun entry => ⟨entry, (settle outline catalog rounds).spaceOf entry⟩⟩

theorem settle_outline (outline : Outline) (catalog : Catalog) (rounds : Nat) :
    (settle outline catalog rounds).outline = outline := by
  cases rounds <;> rfl

theorem settle_catalog (outline : Outline) (catalog : Catalog) (rounds : Nat) :
    (settle outline catalog rounds).catalog = catalog := by
  cases rounds <;> rfl

theorem settle_entries (outline : Outline) (catalog : Catalog) (rounds : Nat) :
    (settle outline catalog rounds).usings.map (·.entry) = outline.usings := by
  cases rounds <;> simp [settle, Function.comp_def]

theorem Agrees.mono {environment : Environment} {offset further : Nat} (agrees : environment.Agrees further)
    (front : offset ≤ further) : environment.Agrees offset where
  entries := agrees.entries
  spaces := fun item member inFront => agrees.spaces item member (Nat.lt_of_lt_of_le inFront front)

variable {outline : Outline} (ordered : outline.ParentsFirst) (catalog : Catalog)

include ordered

/-- Each round settles the statements at one more offset. -/
theorem settle_agrees (offset : Nat) : (settle outline catalog offset).Agrees offset := by
  induction offset with
  | zero =>
      constructor
      · rw [settle_outline, settle_entries]
      · exact fun item member front => absurd front (Nat.not_lt_zero _)
  | succ offset ih =>
      constructor
      · rw [settle_outline, settle_entries]
      · intro item member front
        obtain ⟨entry, -, rfl⟩ := List.mem_map.mp member
        have inside : (settle outline catalog offset).outline.ParentsFirst := by
          rwa [settle_outline]
        have settled := OnDemand.spaceOf_ends inside (ih.mono (Nat.le_of_lt_succ front))
        rwa [settle_outline, settle_catalog] at settled

theorem ofOutline_agrees (ascend : outline.usings.Pairwise fun earlier later =>
    earlier.statement.start < later.statement.start) (offset : Nat) :
    (ofOutline outline catalog).Agrees offset := by
  have resolved := ofUsings_resolved outline catalog ascend
  -- A statement in front of the offset was resolved when those in front of it stood in the list.
  induction offset using Nat.strongRecOn with
  | ind offset ih =>
      constructor
      · rw [ofOutline_outline]
        exact ofUsings_entries outline catalog outline.usings
      · intro item member front
        have settled := OnDemand.spaceOf_ends (by rwa [ofOutline_outline]) (ih item.entry.statement.start front)
        rwa [← resolved item member]

end Environment

namespace OnDemand

variable {outline : Outline} (ordered : outline.ParentsFirst) (catalog : Catalog) (mention : Mention)

include ordered

theorem resolve_ends_settle : EndsWith (resolve outline catalog · mention)
    ((Environment.settle outline catalog mention.chain.start).resolve mention) := by
  have inside : (Environment.settle outline catalog mention.chain.start).outline.ParentsFirst := by
    rwa [Environment.settle_outline]
  have ends := resolve_ends inside (Environment.settle_agrees ordered catalog mention.chain.start)
  rwa [Environment.settle_outline, Environment.settle_catalog] at ends

/-- For statements in the order of the text it is enough to resolve each once. -/
theorem resolve_ends_ofOutline (ascend : outline.usings.Pairwise fun earlier later =>
    earlier.statement.start < later.statement.start) :
    EndsWith (resolve outline catalog · mention)
      ((Environment.ofOutline outline catalog).resolve mention) := by
  have inside : (Environment.ofOutline outline catalog).outline.ParentsFirst := by
    rwa [Environment.ofOutline_outline]
  have ends := resolve_ends inside
    (Environment.ofOutline_agrees ordered catalog ascend mention.chain.start)
  rwa [Environment.ofOutline_outline, Environment.ofOutline_catalog] at ends

end OnDemand

/-- Lookup comes to an end for every list of statements, however they depend on each other, and with every
catalog. A chain of aliases is followed up to the limit. -/
theorem OnDemand.comes_to_an_end (catalog : Catalog) :
    (∀ outline : Outline, outline.ParentsFirst → ∀ mention,
      (∃ resolution, EndsWith (resolve outline catalog · mention) resolution) ∧
      ((outline.usings.Pairwise fun earlier later => earlier.statement.start < later.statement.start) →
        EndsWith (resolve outline catalog · mention)
          ((Environment.ofOutline outline catalog).resolve mention))) ∧
    (∀ start written, EndsWith (target catalog · start written) (catalog.resolve? start written)) ∧
    (∀ owner name, EndsWith (aliasOf catalog · owner name) (catalog.alias? owner name)) ∧
    ∀ owner first more name space, catalog.AliasChain owner (first :: more) name →
      catalog.child? owner name = some space → (first :: more).length ≤ 16 →
        EndsWith (aliasOf catalog · owner first) (some space) := by
  refine ⟨fun outline ordered mention => ⟨?_, fun ascend => ?_⟩, ?_, ?_, ?_⟩
  · exact ⟨_, resolve_ends_settle ordered catalog mention⟩
  · exact resolve_ends_ofOutline ordered catalog mention ascend
  · exact target_ends catalog
  · exact aliasOf_ends catalog
  · intro owner first more name space chain isChild enough
    rw [← chain.alias?_eq isChild enough]
    exact aliasOf_ends catalog owner first

set_option maxRecDepth 100000 in
/-- An alias for itself and a directive that names it do not keep a chain from being followed. -/
theorem OnDemand.comes_to_an_end_circle :
    let shared :=
      "namespace n \x7b int x; \x7d namespace b = n; namespace a = b; namespace c = c; using namespace c;"
    let text := "namespace e = a;\nusing namespace e;\nint y = x;\n"
    let catalog := (Catalog.empty.add (Outline.ofText shared) true).add (Outline.ofText text) false
    let outline := Outline.ofText text
    let mention : Mention := ⟨⟨none, [], ⟨"x", Span.between 44 45⟩⟩, 0, .plain⟩
    catalog.AliasChain NamespacePath.globalPath ["a", "b"] "n" ∧
      EndsWith (aliasOf catalog · NamespacePath.globalPath "a") (some ⟨["n"]⟩) ∧
      EndsWith (aliasOf catalog · NamespacePath.globalPath "c") none ∧
      outline.ParentsFirst ∧
      (outline.usings.Pairwise fun earlier later => earlier.statement.start < later.statement.start) ∧
      outline.mentions = [mention] ∧
      EndsWith (resolve outline catalog · mention)
        (.found ⟨⟨"x", ⟨["n"]⟩, .variable⟩, false, .expression none ⟨"x", Span.between 44 45⟩⟩) := by
  intro shared text catalog outline mention
  have ordered : outline.ParentsFirst := Outline.ofText_parentsFirst text
  have facts : (["a", "b", "n"].IsChain fun former next =>
        catalog.aliasTarget? NamespacePath.globalPath former = some ⟨false, ⟨[next]⟩⟩) ∧
      (∀ former ∈ ["a", "b"], catalog.child? NamespacePath.globalPath former = none) ∧
      catalog.child? NamespacePath.globalPath "n" = some ⟨["n"]⟩ ∧
      catalog.alias? NamespacePath.globalPath "c" = none ∧
      (outline.usings.Pairwise fun earlier later => earlier.statement.start < later.statement.start) ∧
      outline.mentions = [mention] ∧
      (Environment.ofOutline outline catalog).resolve mention =
        .found ⟨⟨"x", ⟨["n"]⟩, .variable⟩, false, .expression none ⟨"x", Span.between 44 45⟩⟩ := by
    decide +kernel
  obtain ⟨links, apart, isChild, unresolved, ascend, mentions, found⟩ := facts
  have chain : catalog.AliasChain NamespacePath.globalPath ["a", "b"] "n" := ⟨links, apart⟩
  obtain ⟨lookup, -, aliases, chains⟩ := comes_to_an_end catalog
  refine ⟨chain, ?_, ?_, ordered, ascend, mentions, ?_⟩
  · exact chains _ _ _ _ _ chain isChild (by decide)
  · exact unresolved ▸ aliases NamespacePath.globalPath "c"
  · exact found ▸ (lookup outline ordered mention).2 ascend

end Requalify
