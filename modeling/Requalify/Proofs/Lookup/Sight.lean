import Mathlib.Data.List.Induction
import Requalify.Proofs.Lookup.Kept
import Requalify.Proofs.Outline.Ancestors

/-!
The statements that lookup consults. From an offset in a scope these are the statements in front of the offset
in the scope and in those around it. What stands behind it or in another scope is not consulted, also not on
the way through the target of a statement that is.
-/

namespace Requalify

theorem findSome?_congr {α β : Type} {f g : α → Option β} {items : List α}
    (same : ∀ item ∈ items, f item = g item) : items.findSome? f = items.findSome? g := by
  induction items with
  | nil => rfl
  | cons item items ih =>
      obtain ⟨here, others⟩ := List.forall_mem_cons.mp same
      rw [List.findSome?_cons, List.findSome?_cons, here, ih others]

theorem filter_filter_of_imp {α : Type} {kept chosen : α → Bool}
    (within : ∀ item, chosen item = true → kept item = true) (items : List α) :
    (items.filter kept).filter chosen = items.filter chosen := by
  rw [List.filter_filter]
  refine List.filter_congr fun item _ => ?_
  by_cases isChosen : chosen item = true
  · simp [isChosen, within item isChosen]
  · simp [isChosen]

namespace Outline

/-- The statement is written in front of an offset, in a scope or in one around it. -/
def sees (outline : Outline) (scope offset : Nat) (entry : ScopedUsing) : Bool :=
  decide (entry.scope ∈ outline.ancestors scope) && decide (entry.statement.start < offset)

theorem sees_iff {outline : Outline} {scope offset : Nat} {entry : ScopedUsing} :
    outline.sees scope offset entry = true ↔
      entry.scope ∈ outline.ancestors scope ∧ entry.statement.start < offset := by
  simp [sees]

/-- What is seen from a place that is seen. -/
theorem sees_trans {outline : Outline} {scope offset scope' offset' : Nat} {entry : ScopedUsing}
    (around : scope' ∈ outline.ancestors scope) (front : offset' ≤ offset)
    (seen : outline.sees scope' offset' entry = true) : outline.sees scope offset entry = true := by
  obtain ⟨isAround, isFront⟩ := sees_iff.mp seen
  exact sees_iff.mpr ⟨(ancestors_suffix around).subset isAround, Nat.lt_of_lt_of_le isFront front⟩

/-- Two outlines of the same scopes and names, whatever their using-statements are. -/
structure SameNames (old new : Outline) : Prop where
  scopes : new.scopes = old.scopes
  declarations : new.declarations = old.declarations
  bindings : new.bindings = old.bindings

namespace SameNames

variable {old new : Outline} (same : old.SameNames new)

include same

theorem scope (id : Nat) : new.scope id = old.scope id := by
  rw [Outline.scope, Outline.scope, same.scopes]

theorem ancestors (id : Nat) : new.ancestors id = old.ancestors id :=
  ancestors_congr fun other _ => by rw [same.scope]

theorem namespaceOf (id : Nat) : new.namespaceOf id = old.namespaceOf id := by
  simp only [Outline.namespaceOf, same.ancestors, same.scope]

theorem isInAnonymous (id : Nat) : new.isInAnonymous id = old.isInAnonymous id := by
  simp only [Outline.isInAnonymous, same.ancestors, same.scope]

theorem binds (id : Nat) (name : String) : new.binds id name = old.binds id name := by
  rw [Outline.binds, Outline.binds, same.bindings]

theorem sees (scope offset : Nat) : new.sees scope offset = old.sees scope offset := by
  funext entry
  rw [Outline.sees, Outline.sees, same.ancestors]

end SameNames

end Outline

namespace Environment

/-- Two environments that are alike in what is seen from an offset in a scope. -/
structure SeesAlike (scope offset : Nat) (old new : Environment) : Prop where
  outline : old.outline.SameNames new.outline
  catalog : new.catalog = old.catalog
  usings : new.usings.filter (old.outline.sees scope offset ·.entry) =
    old.usings.filter (old.outline.sees scope offset ·.entry)

namespace SeesAlike

variable {scope offset : Nat} {old new : Environment}

theorem symm (alike : old.SeesAlike scope offset new) : new.SeesAlike scope offset old where
  outline := ⟨alike.outline.scopes.symm, alike.outline.declarations.symm, alike.outline.bindings.symm⟩
  catalog := alike.catalog.symm
  usings := by rw [alike.outline.sees, alike.usings]

theorem trans {middle : Environment} (left : old.SeesAlike scope offset middle)
    (right : middle.SeesAlike scope offset new) : old.SeesAlike scope offset new where
  outline :=
    { scopes := right.outline.scopes.trans left.outline.scopes
      declarations := right.outline.declarations.trans left.outline.declarations
      bindings := right.outline.bindings.trans left.outline.bindings }
  catalog := right.catalog.trans left.catalog
  usings := by
    have further := right.usings
    rw [left.outline.sees] at further
    exact further.trans left.usings

/-- From a place that is seen less is seen. -/
theorem inner (alike : old.SeesAlike scope offset new) {scope' offset' : Nat}
    (around : scope' ∈ old.outline.ancestors scope) (front : offset' ≤ offset) :
    old.SeesAlike scope' offset' new where
  outline := alike.outline
  catalog := alike.catalog
  usings := by
    have within (item : ResolvedUsing) (seen : old.outline.sees scope' offset' item.entry = true) :=
      Outline.sees_trans around front seen
    rw [← filter_filter_of_imp within new.usings, ← filter_filter_of_imp within old.usings, alike.usings]

variable (alike : old.SeesAlike scope offset new)

include alike

theorem isBound (name : String) : new.isBound scope name = old.isBound scope name := by
  simp only [Environment.isBound, alike.outline.ancestors, alike.outline.binds]

theorem usingsIn {level : Nat} (around : level ∈ old.outline.ancestors scope) (kind : UsingKind) :
    new.usingsIn level offset kind = old.usingsIn level offset kind := by
  have within (item : ResolvedUsing) : (item.entry.statement.kind == kind &&
      item.entry.scope == level && item.entry.statement.start < offset) = true →
        old.outline.sees scope offset item.entry = true := by
    intro isHere
    simp only [Bool.and_eq_true, beq_iff_eq, decide_eq_true_eq] at isHere
    exact Outline.sees_iff.mpr ⟨isHere.1.2 ▸ around, isHere.2⟩
  rw [Environment.usingsIn, Environment.usingsIn, ← filter_filter_of_imp within new.usings,
    ← filter_filter_of_imp within old.usings, alike.usings]

theorem namespaceMember (space : NamespacePath) (name : String) :
    new.namespaceMember space name = old.namespaceMember space name := by
  rw [Environment.namespaceMember, Environment.namespaceMember, alike.catalog]

theorem directivesAt {level : Nat} (around : level ∈ old.outline.ancestors scope) :
    new.directivesAt offset level = old.directivesAt offset level := by
  simp only [Environment.directivesAt, alike.outline.scope, alike.outline.namespaceOf, alike.catalog,
    alike.usingsIn around]

theorem visibleDirectives : new.visibleDirectives scope offset = old.visibleDirectives scope offset := by
  rw [Environment.visibleDirectives, Environment.visibleDirectives, alike.outline.ancestors]
  exact List.flatMap_congr fun level around => alike.directivesAt around

theorem namespaceAt {level : Nat} (around : level ∈ old.outline.ancestors scope) (name : String) :
    new.namespaceAt offset name level = old.namespaceAt offset name level := by
  simp only [Environment.namespaceAt, aliasAt, alike.usingsIn around, alike.outline.scope,
    alike.namespaceMember]

theorem findNamespace (name : String) :
    new.findNamespace scope offset name = old.findNamespace scope offset name := by
  have levels : (new.outline.ancestors scope).findSome? (new.namespaceAt offset name) =
      (old.outline.ancestors scope).findSome? (old.namespaceAt offset name) := by
    rw [alike.outline.ancestors]
    exact findSome?_congr fun level around => alike.namespaceAt around name
  rw [Environment.findNamespace, Environment.findNamespace, levels, alike.visibleDirectives,
    alike.catalog]

theorem resolveWritten (target : WrittenPath) :
    new.resolveWritten scope offset target = old.resolveWritten scope offset target := by
  simp only [Environment.resolveWritten, alike.findNamespace, alike.namespaceMember]

theorem fileMember (space : NamespacePath) (name : String) :
    new.fileMember space name = old.fileMember space name := by
  simp only [Environment.fileMember, alike.outline.declarations, alike.outline.isInAnonymous,
    alike.outline.namespaceOf, alike.outline.scope]

theorem qualified (space : NamespacePath) (name : String) :
    new.qualified space name = old.qualified space name := by
  rw [Environment.qualified, Environment.qualified, alike.fileMember, alike.catalog]

theorem imported {level : Nat} (around : level ∈ old.outline.ancestors scope) (name : String) :
    new.imported offset name level = old.imported offset name level := by
  simp only [Environment.imported, alike.usingsIn around, alike.qualified]

theorem memberAt (directives : List VisibleDirective) (name : String) (around : Scope) :
    new.memberAt directives name around = old.memberAt directives name around := by
  simp only [Environment.memberAt, alike.fileMember, alike.catalog, alike.qualified]

theorem unqualified (name : String) :
    new.unqualified scope offset name = old.unqualified scope offset name := by
  rw [Environment.unqualified, Environment.unqualified, alike.outline.ancestors]
  refine findSome?_congr fun level around => ?_
  simp only [alike.imported around, alike.outline.scope, alike.memberAt, alike.visibleDirectives]

theorem walk (space : Option NamespacePath) (passed : List Specifier)
    (names : List (NameToken × Span)) :
    new.walk scope offset space passed names = old.walk scope offset space passed names := by
  induction names generalizing space passed with
  | nil => rfl
  | cons name names ih =>
      simp only [Environment.walk, alike.findNamespace, alike.namespaceMember, ih]

theorem member (space : NamespacePath) (name : String) :
    new.member space name = old.member space name := by
  rw [Environment.member, Environment.member, alike.qualified]

end SeesAlike

variable {old new : Environment}

theorem spaceOf_seesAlike {entry : ScopedUsing}
    (alike : old.SeesAlike entry.scope entry.statement.start new) :
    new.spaceOf entry = old.spaceOf entry := by
  simp only [spaceOf, alike.resolveWritten]

theorem resolve_seesAlike {mention : Mention}
    (alike : old.SeesAlike mention.scope mention.chain.start new) :
    new.resolve mention = old.resolve mention := by
  simp only [resolve, alike.isBound, alike.walk, alike.unqualified, alike.member]

/-! The statements of a file, one after the other. -/

/-- The environment in which statements have been resolved in the order of a list. -/
def ofUsings (outline : Outline) (catalog : Catalog) (entries : List ScopedUsing) : Environment :=
  entries.foldl addUsing ⟨outline, catalog, []⟩

theorem ofUsings_concat (outline : Outline) (catalog : Catalog) (entries : List ScopedUsing)
    (entry : ScopedUsing) :
    ofUsings outline catalog (entries ++ [entry]) = (ofUsings outline catalog entries).addUsing entry := by
  rw [ofUsings, List.foldl_append]
  rfl

theorem ofUsings_outline (outline : Outline) (catalog : Catalog) (entries : List ScopedUsing) :
    (ofUsings outline catalog entries).outline = outline := by
  obtain ⟨later, same⟩ := foldl_addUsing ⟨outline, catalog, []⟩ entries
  rw [ofUsings, same]

theorem ofUsings_catalog (outline : Outline) (catalog : Catalog) (entries : List ScopedUsing) :
    (ofUsings outline catalog entries).catalog = catalog := by
  obtain ⟨later, same⟩ := foldl_addUsing ⟨outline, catalog, []⟩ entries
  rw [ofUsings, same]

section Run

variable {old new : Outline} (same : old.SameNames new) (catalog : Catalog)

include same

/-- The same statements in the same scopes name the same namespaces. -/
theorem ofUsings_sameNames (scope offset : Nat) (entries : List ScopedUsing) :
    (ofUsings old catalog entries).SeesAlike scope offset (ofUsings new catalog entries) := by
  suffices usings : (ofUsings new catalog entries).usings = (ofUsings old catalog entries).usings by
    constructor
    · rwa [ofUsings_outline, ofUsings_outline]
    · rw [ofUsings_catalog, ofUsings_catalog]
    · rw [usings]
  induction entries using List.reverseRecOn with
  | nil => rfl
  | append_singleton entries entry ih =>
      have space : (ofUsings new catalog entries).spaceOf entry =
          (ofUsings old catalog entries).spaceOf entry := by
        apply spaceOf_seesAlike
        constructor
        · rwa [ofUsings_outline, ofUsings_outline]
        · rw [ofUsings_catalog, ofUsings_catalog]
        · rw [ih]
      rw [ofUsings_concat, ofUsings_concat, addUsing, addUsing, ih, space]

omit same in
/-- What is not seen can be left out. -/
theorem ofUsings_seen (outline : Outline) (scope offset : Nat) (entries : List ScopedUsing) :
    (ofUsings outline catalog entries).SeesAlike scope offset
      (ofUsings outline catalog (entries.filter (outline.sees scope offset))) := by
  induction entries using List.reverseRecOn with
  | nil => exact ⟨⟨rfl, rfl, rfl⟩, rfl, rfl⟩
  | append_singleton entries entry ih =>
      have usings := ih.usings
      rw [ofUsings_outline] at usings
      by_cases seen : outline.sees scope offset entry = true
      · obtain ⟨around, front⟩ := Outline.sees_iff.mp seen
        rw [← ofUsings_outline outline catalog entries] at around
        have space := spaceOf_seesAlike (ih.inner around (Nat.le_of_lt front))
        rw [List.filter_append, List.filter_singleton, seen, cond_true, ofUsings_concat, ofUsings_concat]
        refine ⟨ih.outline, ih.catalog, ?_⟩
        simp only [addUsing, ofUsings_outline, List.filter_append, usings, space]
      · rw [List.filter_append, List.filter_singleton, Bool.eq_false_iff.mpr seen, cond_false,
          List.append_nil, ofUsings_concat]
        refine ⟨ih.outline, ih.catalog, ?_⟩
        simp [addUsing, ofUsings_outline, usings, seen]

/-- Whatever else the files state, they are alike where the same statements are seen. -/
theorem ofOutline_seesAlike {scope offset : Nat}
    (seen : new.usings.filter (old.sees scope offset) = old.usings.filter (old.sees scope offset)) :
    (ofOutline old catalog).SeesAlike scope offset (ofOutline new catalog) := by
  have before := ofUsings_seen catalog old scope offset old.usings
  have after := ofUsings_seen catalog new scope offset new.usings
  rw [same.sees, seen] at after
  exact (before.trans (ofUsings_sameNames same catalog scope offset _)).trans after.symm

end Run

theorem ofUsings_entries (outline : Outline) (catalog : Catalog) (entries : List ScopedUsing) :
    (ofUsings outline catalog entries).usings.map (·.entry) = entries := by
  induction entries using List.reverseRecOn with
  | nil => rfl
  | append_singleton entries entry ih =>
      rw [ofUsings_concat, addUsing, List.map_append, ih]
      rfl

/-- A statement is not seen from in front of it. -/
theorem addUsing_seesAlike (environment : Environment) {entry : ScopedUsing} {offset : Nat}
    (behind : offset ≤ entry.statement.start) (scope : Nat) :
    environment.SeesAlike scope offset (environment.addUsing entry) := by
  refine ⟨⟨rfl, rfl, rfl⟩, rfl, ?_⟩
  simp [addUsing, List.filter_append, Outline.sees, behind]

/-- Statements in the order of the text name what they name among all of them. -/
theorem ofUsings_resolved (outline : Outline) (catalog : Catalog) {entries : List ScopedUsing}
    (ascend : entries.Pairwise fun earlier later => earlier.statement.start < later.statement.start) :
    ∀ item ∈ (ofUsings outline catalog entries).usings,
      (ofUsings outline catalog entries).spaceOf item.entry = item.space := by
  induction entries using List.reverseRecOn with
  | nil =>
      intro item member
      exact absurd member List.not_mem_nil
  | append_singleton entries entry ih =>
      obtain ⟨front, -, last⟩ := List.pairwise_append.mp ascend
      intro item member
      rw [ofUsings_concat] at member ⊢
      rcases List.mem_append.mp member with inFront | isLast
      · have inEntries : item.entry ∈ entries := by
          rw [← ofUsings_entries outline catalog entries]
          exact List.mem_map_of_mem inFront
        have earlier := last item.entry inEntries entry List.mem_cons_self
        rw [← ih front item inFront]
        exact spaceOf_seesAlike (addUsing_seesAlike _ (Nat.le_of_lt earlier) _)
      · obtain rfl := List.mem_singleton.mp isLast
        exact spaceOf_seesAlike (addUsing_seesAlike _ (Nat.le_refl _) _)

end Environment

end Requalify
