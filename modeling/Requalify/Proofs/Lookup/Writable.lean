import Requalify.Proofs.Lookup
import Requalify.Proofs.Outline.Trail

/-!
The paths that lookup gives. If the names of all namespaces in a catalog and in a file can be written, so
can the path of whatever a mention refers to. In catalogs of scanned texts they can.
-/

namespace Requalify

section Steps

variable {step : NamespacePath → String → Option NamespacePath} {holds : NamespacePath → Prop}
  (keeps : ∀ space name next, step space name = some next → holds next)

include keeps

/-- Names lead only to namespaces that some step leads to. -/
theorem foldlM_keeps {names : List String} {start reached : NamespacePath} (first : holds start)
    (leads : names.foldlM step start = some reached) : holds reached := by
  induction names generalizing start with
  | nil =>
      obtain rfl := Option.some.inj leads
      exact first
  | cons name names ih =>
      obtain ⟨next, here, further⟩ := Option.bind_eq_some_iff.mp leads
      exact ih (keeps start name next here) further

theorem findSome?_keeps {spaces : List NamespacePath} {first : String} {rest : List String}
    {reached : NamespacePath}
    (leads : (spaces.findSome? (step · first)).bind (rest.foldlM step) = some reached) :
    holds reached := by
  obtain ⟨outer, isFirst, further⟩ := Option.bind_eq_some_iff.mp leads
  obtain ⟨around, -, here⟩ := List.exists_of_findSome?_eq_some isFirst
  exact foldlM_keeps keeps (keeps around first outer here) further

end Steps

theorem Outline.Writable.scope {outline : Outline} (writable : outline.Writable) (id : Nat) :
    (outline.scope id).path.Writable := by
  rw [Outline.scope, Array.getD_eq_getD_getElem?]
  cases known : outline.scopes[id]? with
  | none => exact NamespacePath.globalPath_writable
  | some scope => exact writable.scopes scope (Array.mem_of_getElem? known)

namespace Catalog

theorem child?_keeps {catalog : Catalog} {holds : NamespacePath → Prop}
    (known : ∀ entry ∈ catalog.namespaces, holds entry.path) {parent space : NamespacePath}
    {name : String} (found : catalog.child? parent name = some space) : holds space := by
  obtain ⟨entry, member, rfl⟩ := Option.map_eq_some_iff.mp found
  exact known entry (List.mem_of_find?_eq_some member)

/-- A written path names a namespace of the catalog. -/
theorem resolveWithin_keeps {catalog : Catalog} {holds : NamespacePath → Prop}
    (known : ∀ entry ∈ catalog.namespaces, holds entry.path) {budget : Nat}
    {start space : NamespacePath} {target : WrittenPath}
    (found : catalog.resolveWithin budget start target = some space) : holds space := by
  induction budget generalizing start space target with
  | zero => simp [resolveWithin] at found
  | succ budget ih =>
      rw [resolveWithin.eq_def] at found
      split at found
      next => simp at found
      next => simp at found
      next fuel _ first rest same _ =>
        obtain rfl := Nat.succ.inj same
        extract_lets step spaces at found
        refine findSome?_keeps (fun space name next here => ?_) found
        simp only [step] at here
        split at here
        next child isChild =>
          obtain rfl := Option.some.inj here
          exact child?_keeps known isChild
        next =>
          obtain ⟨target, -, resolved⟩ := Option.bind_eq_some_iff.mp here
          exact ih resolved

structure Writable (catalog : Catalog) : Prop where
  namespaces : ∀ entry ∈ catalog.namespaces, entry.path.Writable
  members : ∀ declaration ∈ catalog.members, declaration.path.Writable

theorem empty_writable : empty.Writable :=
  ⟨by simp [empty], by simp [empty]⟩

variable {catalog : Catalog} (writable : catalog.Writable)

include writable

theorem Writable.add {outline : Outline} (outlineWritable : outline.Writable) (shares : Bool) :
    (catalog.add outline shares).Writable := by
  refine ⟨?_, ?_⟩
  · refine List.forall_mem_append.mpr ⟨writable.namespaces, List.forall_mem_map.mpr ?_⟩
    intro definition member
    obtain ⟨parent, isName⟩ := outlineWritable.namespaces definition member
    unfold nestedOf
    dsimp only
    split
    next => exact parent
    next => exact parent.child isName
  · refine List.forall_mem_append.mpr ⟨writable.members, fun declaration member => ?_⟩
    obtain ⟨declared, -, shared⟩ := List.mem_filterMap.mp member
    unfold memberOf? at shared
    split at shared
    next => simp at shared
    next =>
      obtain rfl := Option.some.inj shared
      exact outlineWritable.scope declared.scope

theorem child?_writable {parent space : NamespacePath} {name : String}
    (found : catalog.child? parent name = some space) : space.Writable :=
  child?_keeps writable.namespaces found

theorem resolveWithin_writable {budget : Nat} {start space : NamespacePath} {target : WrittenPath}
    (found : catalog.resolveWithin budget start target = some space) : space.Writable :=
  resolveWithin_keeps writable.namespaces found

theorem alias?_writable {owner space : NamespacePath} {name : String}
    (found : catalog.alias? owner name = some space) : space.Writable := by
  obtain ⟨target, -, resolved⟩ := Option.bind_eq_some_iff.mp found
  exact resolveWithin_writable writable resolved

end Catalog

namespace Environment

structure Writable (environment : Environment) : Prop where
  outline : environment.outline.Writable
  catalog : environment.catalog.Writable
  usings : ∀ item ∈ environment.usings, ∀ space ∈ item.space, space.Writable

variable {environment : Environment} (writable : environment.Writable)

include writable

theorem namespaceMember_writable {space inner : NamespacePath} {name : String} {kind : SpecifierKind}
    (found : environment.namespaceMember space name = some (inner, kind)) : inner.Writable := by
  unfold namespaceMember at found
  split at found
  next child isChild =>
    obtain ⟨rfl, -⟩ := Prod.mk.inj (Option.some.inj found)
    exact Catalog.child?_writable writable.catalog isChild
  next =>
    obtain ⟨target, isAlias, same⟩ := Option.map_eq_some_iff.mp found
    obtain ⟨rfl, -⟩ := Prod.mk.inj same
    exact Catalog.alias?_writable writable.catalog isAlias

theorem namespaceAt_writable {offset level : Nat} {name : String} {space : NamespacePath}
    {kind : SpecifierKind} (found : environment.namespaceAt offset name level = some (space, kind)) :
    space.Writable := by
  unfold namespaceAt at found
  split at found
  next target isAlias =>
    obtain ⟨rfl, -⟩ := Prod.mk.inj (Option.some.inj found)
    obtain ⟨item, last, leads⟩ := Option.bind_eq_some_iff.mp isAlias
    have inScope := (List.mem_filter.mp (List.mem_of_getLast? last)).1
    exact writable.usings item (List.mem_filter.mp inScope).1 _ leads
  next =>
    dsimp only at found
    split at found
    next => exact namespaceMember_writable writable found
    next => simp at found

theorem findNamespace_writable {scope offset : Nat} {name : String} {space : NamespacePath}
    {kind : SpecifierKind} (found : environment.findNamespace scope offset name = some (space, kind)) :
    space.Writable := by
  unfold findNamespace at found
  split at found
  next result here =>
    obtain rfl := Option.some.inj found
    obtain ⟨level, -, isNamespace⟩ := List.exists_of_findSome?_eq_some here
    exact namespaceAt_writable writable isNamespace
  next =>
    obtain ⟨inner, nominated, same⟩ := Option.map_eq_some_iff.mp found
    obtain ⟨rfl, -⟩ := Prod.mk.inj same
    obtain ⟨directive, -, isChild⟩ := List.exists_of_findSome?_eq_some nominated
    exact Catalog.child?_writable writable.catalog isChild

theorem resolveWritten_writable {scope offset : Nat} {target : WrittenPath} {space : NamespacePath}
    (found : environment.resolveWritten scope offset target = some space) : space.Writable := by
  unfold resolveWritten at found
  split at found
  next => simp at found
  next first rest spelled =>
    obtain ⟨⟨outer, kind⟩, isFirst, further⟩ := Option.bind_eq_some_iff.mp found
    refine foldlM_keeps (fun space name next here => ?_) ?_ further
    · obtain ⟨⟨inner, kind⟩, isMember, rfl⟩ := Option.map_eq_some_iff.mp here
      exact namespaceMember_writable writable isMember
    · split at isFirst
      next => exact namespaceMember_writable writable isFirst
      next => exact findNamespace_writable writable isFirst

theorem spaceOf_writable {entry : ScopedUsing} {space : NamespacePath}
    (found : environment.spaceOf entry = some space) : space.Writable := by
  unfold spaceOf at found
  dsimp only at found
  split at found
  next => exact resolveWritten_writable writable found
  next => exact resolveWritten_writable writable found
  next =>
    split at found
    next =>
      split at found
      next =>
        obtain rfl := Option.some.inj found
        exact NamespacePath.globalPath_writable
      next => simp at found
    next => exact resolveWritten_writable writable found

theorem Writable.addUsing (entry : ScopedUsing) : (environment.addUsing entry).Writable := by
  refine ⟨writable.outline, writable.catalog, List.forall_mem_append.mpr ⟨writable.usings, ?_⟩⟩
  intro item member space isSpace
  obtain rfl := List.mem_singleton.mp member
  exact spaceOf_writable writable isSpace

omit writable in
theorem ofOutline_writable {outline : Outline} {catalog : Catalog} (outlineWritable : outline.Writable)
    (catalogWritable : catalog.Writable) : (ofOutline outline catalog).Writable := by
  have kept (entries : List ScopedUsing) {environment : Environment} (writable : environment.Writable) :
      (entries.foldl addUsing environment).Writable := by
    induction entries generalizing environment with
    | nil => exact writable
    | cons entry rest ih => exact ih (writable.addUsing entry)
  exact kept outline.usings ⟨outlineWritable, catalogWritable, by simp⟩

theorem walk_writable {scope offset : Nat} {space : Option NamespacePath} {passed : List Specifier}
    {names : List (NameToken × Span)} (start : ∀ path ∈ space, path.Writable) :
    ∀ path ∈ (environment.walk scope offset space passed names).1, path.Writable := by
  fun_induction walk environment scope offset space passed names with
  | case1 space passed => exact start
  | case2 space passed name separator rest next inner kind found ih =>
      refine ih fun path same => ?_
      obtain rfl := Option.some.inj same
      simp only [next] at found
      split at found
      next => exact findNamespace_writable writable found
      next => exact namespaceMember_writable writable found
  | case3 space passed name separator rest next missing => exact start

theorem writable_of_holds {declaration : Declaration} (holds : environment.Holds declaration) :
    declaration.path.Writable := by
  cases holds with
  | inFile member =>
      obtain ⟨declared, -, chosen⟩ := List.exists_of_findSome?_eq_some member
      split at chosen
      next =>
        extract_lets owner at chosen
        split at chosen
        next same => exact same ▸ writable.outline.scope _
        next => simp at chosen
      next => simp at chosen
  | inCatalog member => exact writable.catalog.members declaration (List.mem_of_find?_eq_some member)

/-- The path of what a mention refers to can be written. -/
theorem resolve_writable {mention : Mention} {resolved : Resolved}
    (located : environment.resolve mention = .found resolved) :
    resolved.declaration.path.Writable := by
  have found := find?_of_resolve located
  unfold find? at found
  split at found
  next => exact writable_of_holds writable (holds_of_unqualified found).2
  next space read =>
    rcases (member_cases found).2 with holds | same
    · exact writable_of_holds writable holds
    · have global : ∀ path ∈ mention.chain.leading.map fun _ => NamespacePath.globalPath,
          path.Writable := by
        intro path isPath
        obtain ⟨_, -, rfl⟩ := Option.map_eq_some_iff.mp isPath
        exact NamespacePath.globalPath_writable
      exact same ▸ walk_writable writable global space read

end Environment

/-- The catalog of scanned texts, each with whether it shares its using-statements. -/
def Catalog.ofTexts (files : List (String × Bool)) : Catalog :=
  files.foldl (fun catalog (text, shares) => catalog.add (Outline.ofText text) shares) Catalog.empty

theorem Catalog.ofTexts_writable (files : List (String × Bool)) : (ofTexts files).Writable := by
  have kept (files : List (String × Bool)) {catalog : Catalog} (writable : catalog.Writable) :
      (files.foldl (fun catalog (text, shares) => catalog.add (Outline.ofText text) shares)
        catalog).Writable := by
    induction files generalizing catalog with
    | nil => exact writable
    | cons file rest ih => exact ih (writable.add (Outline.ofText_writable file.1) file.2)
  exact kept files empty_writable

end Requalify
