import Mathlib.Data.List.Forall2
import Requalify.Resolution

/-!
What a using-statement names when other using-statements are removed. Its first name is sought through
the statements in front of it, in the scopes around it and in the shared files, and the other names in
the catalog alone. So it names what it has named before if nothing is removed that supplies its first
name, and if the statements that do supply it name in their turn what they have named before.
-/

namespace Requalify

theorem filterMap_eq_of_filter {α β γ : Type} {kept : α → Bool} {same : α → β → Prop} {items : List α}
    {left : List β} (pairs : List.Forall₂ same (items.filter kept) left) {f : α → Option γ}
    {g : β → Option γ} (dropped : ∀ item ∈ items, kept item = false → f item = none)
    (agree : ∀ item ∈ items, ∀ other ∈ left, kept item = true → same item other → f item = g other) :
    items.filterMap f = left.filterMap g := by
  induction items generalizing left with
  | nil =>
      obtain rfl := List.forall₂_nil_left_iff.mp pairs
      rfl
  | cons item items ih =>
      obtain ⟨here, dropped⟩ := List.forall_mem_cons.mp dropped
      obtain ⟨first, agree⟩ := List.forall_mem_cons.mp agree
      cases isKept : kept item with
      | false =>
          rw [List.filter_cons_of_neg (by simp [isKept])] at pairs
          rw [List.filterMap_cons_none (here isKept), ih pairs dropped agree]
      | true =>
          rw [List.filter_cons_of_pos isKept] at pairs
          obtain ⟨other, others, isSame, others', rfl⟩ := List.forall₂_cons_left_iff.mp pairs
          have further := ih others' dropped fun item member other inOthers =>
            agree item member other (List.mem_cons_of_mem _ inOthers)
          rw [List.filterMap_cons, List.filterMap_cons, further,
            first other List.mem_cons_self isKept isSame]

theorem foldlM_congr {α β : Type} {f g : β → α → Option β} {items : List α}
    (same : ∀ item ∈ items, ∀ start, f start item = g start item) (start : β) :
    items.foldlM f start = items.foldlM g start := by
  induction items generalizing start with
  | nil => rfl
  | cons item items ih =>
      obtain ⟨here, others⟩ := List.forall_mem_cons.mp same
      rw [List.foldlM_cons, List.foldlM_cons, here]
      exact congrArg _ (funext (ih others))

/-- The same statement in the same scope, at any offset. -/
structure ScopedUsing.Moved (old new : ScopedUsing) : Prop where
  kind : new.statement.kind = old.statement.kind
  scope : new.scope = old.scope
  absolute : new.absolute = old.absolute
  target : new.target = old.target
  newName : new.newName = old.newName

instance (old new : ScopedUsing) : Decidable (old.Moved new) :=
  decidable_of_iff (new.statement.kind = old.statement.kind ∧ new.scope = old.scope ∧
      new.absolute = old.absolute ∧ new.target = old.target ∧ new.newName = old.newName)
    ⟨fun ⟨kind, scope, absolute, target, newName⟩ => ⟨kind, scope, absolute, target, newName⟩,
      fun ⟨kind, scope, absolute, target, newName⟩ => ⟨kind, scope, absolute, target, newName⟩⟩

/-- The name that is sought from the place of a statement outwards. -/
def ScopedUsing.sought? (entry : ScopedUsing) : Option String :=
  if entry.absolute then none else entry.target.segments.head?

/-- A scope without its place in the text. -/
def Scope.shape (scope : Scope) : ScopeKind × Option Nat × NamespacePath :=
  (scope.kind, scope.parent, scope.path)

/-- The scopes are as before, and so are the using-statements but those that are removed. -/
structure Outline.Loses (removed : ScopedUsing → Bool) (old new : Outline) : Prop where
  scopes : new.scopes.map Scope.shape = old.scopes.map Scope.shape
  usings : List.Forall₂ ScopedUsing.Moved (old.usings.filter fun entry => !removed entry) new.usings

instance (removed : ScopedUsing → Bool) (old new : Outline) :
    Decidable (Outline.Loses removed old new) :=
  decidable_of_iff (new.scopes.map Scope.shape = old.scopes.map Scope.shape ∧
      List.Forall₂ ScopedUsing.Moved (old.usings.filter fun entry => !removed entry) new.usings)
    ⟨fun ⟨scopes, usings⟩ => ⟨scopes, usings⟩, fun ⟨scopes, usings⟩ => ⟨scopes, usings⟩⟩

namespace Outline.Loses

variable {removed : ScopedUsing → Bool} {old new : Outline} (loses : Loses removed old new)

include loses

theorem shape (id : Nat) : (new.scope id).shape = (old.scope id).shape := by
  have through (outline : Outline) :
      (outline.scope id).shape = ((outline.scopes.map Scope.shape)[id]?).getD default := by
    rw [Outline.scope, Array.getD_eq_getD_getElem?, Array.getElem?_map]
    cases outline.scopes[id]? with
    | none => rfl
    | some scope => rfl
  rw [through, through, loses.scopes]

theorem kind (id : Nat) : (new.scope id).kind = (old.scope id).kind :=
  congrArg (·.1) (loses.shape id)

theorem parent (id : Nat) : (new.scope id).parent = (old.scope id).parent :=
  congrArg (·.2.1) (loses.shape id)

theorem path (id : Nat) : (new.scope id).path = (old.scope id).path :=
  congrArg (·.2.2) (loses.shape id)

theorem ancestors (id : Nat) : new.ancestors id = old.ancestors id := by
  induction id using Nat.strongRecOn with
  | ind id ih =>
      rw [Outline.ancestors, Outline.ancestors, loses.parent]
      split
      next parent _ =>
        split
        next outer => rw [ih parent outer]
        next => rfl
      next => rfl

end Outline.Loses

namespace Catalog

/-- The directives of shared files through which a namespace `name` is found. -/
def supplying (catalog : Catalog) (name : String) : List DirectiveTarget :=
  catalog.directives.filter fun entry =>
    ((catalog.resolve? entry.owner entry.target).bind (catalog.child? · name)).isSome

/-- No shared statement is removed that supplies one of the names, and those that do are written with
such names only. -/
structure Keeps (names : String → Prop) (old new : Catalog) : Prop where
  namespaces : new.namespaces = old.namespaces
  aliases : ∀ name, names name →
    new.aliases.filter (·.name == name) = old.aliases.filter (·.name == name)
  directives : ∀ name, names name → new.supplying name = old.supplying name
  aliasNames : ∀ entry ∈ old.aliases, names entry.name →
    ∀ part ∈ entry.target.path.segments, names part
  directiveNames : ∀ name, names name → ∀ entry ∈ old.supplying name,
    ∀ part ∈ entry.target.path.segments, names part

instance (names : List String) (old new : Catalog) : Decidable (Keeps (· ∈ names) old new) :=
  decidable_of_iff (new.namespaces = old.namespaces ∧
      (∀ name ∈ names, new.aliases.filter (·.name == name) = old.aliases.filter (·.name == name)) ∧
      (∀ name ∈ names, new.supplying name = old.supplying name) ∧
      (∀ entry ∈ old.aliases, entry.name ∈ names → ∀ part ∈ entry.target.path.segments, part ∈ names) ∧
      ∀ name ∈ names, ∀ entry ∈ old.supplying name, ∀ part ∈ entry.target.path.segments, part ∈ names)
    ⟨fun ⟨namespaces, aliases, directives, aliasNames, directiveNames⟩ =>
      ⟨namespaces, aliases, directives, aliasNames, directiveNames⟩,
    fun ⟨namespaces, aliases, directives, aliasNames, directiveNames⟩ =>
      ⟨namespaces, aliases, directives, aliasNames, directiveNames⟩⟩

namespace Keeps

variable {names : String → Prop} {old new : Catalog} (keeps : Keeps names old new)

include keeps

theorem child? (space : NamespacePath) (name : String) :
    new.child? space name = old.child? space name := by
  rw [Catalog.child?, Catalog.child?, keeps.namespaces]

theorem aliasTarget? (owner : NamespacePath) {name : String} (known : names name) :
    new.aliasTarget? owner name = old.aliasTarget? owner name := by
  have through (catalog : Catalog) : catalog.aliasTarget? owner name =
      ((catalog.aliases.filter (·.name == name)).find? (·.owner == owner)).map (·.target) := by
    rw [Catalog.aliasTarget?, List.find?_filter]
    simp only [Bool.decide_and, Bool.decide_eq_true]
  rw [through, through, keeps.aliases name known]

theorem written (owner : NamespacePath) {name : String} (known : names name) {target : WrittenPath}
    (found : old.aliasTarget? owner name = some target) :
    ∀ part ∈ target.path.segments, names part := by
  obtain ⟨entry, isEntry, rfl⟩ := Option.map_eq_some_iff.mp found
  have matched := List.find?_some isEntry
  simp only [Bool.and_eq_true, beq_iff_eq] at matched
  exact keeps.aliasNames entry (List.mem_of_find?_eq_some isEntry) (matched.1 ▸ known)

theorem resolveWithin (budget : Nat) (start : NamespacePath) {target : WrittenPath}
    (known : ∀ part ∈ target.path.segments, names part) :
    new.resolveWithin budget start target = old.resolveWithin budget start target := by
  induction budget generalizing start target with
  | zero => rw [Catalog.resolveWithin, Catalog.resolveWithin]
  | succ budget ih =>
      have step {name : String} (isKnown : names name) (space : NamespacePath) :
          (new.aliasTarget? space name).bind (new.resolveWithin budget space) =
            (old.aliasTarget? space name).bind (old.resolveWithin budget space) := by
        rw [keeps.aliasTarget? space isKnown]
        cases found : old.aliasTarget? space name with
        | none => rfl
        | some target => exact ih space (keeps.written space isKnown found)
      rw [Catalog.resolveWithin.eq_def, Catalog.resolveWithin.eq_def]
      cases parts : target.path.segments with
      | nil => rfl
      | cons first rest =>
          rw [parts] at known
          obtain ⟨isKnown, others⟩ := List.forall_mem_cons.mp known
          simp only [keeps.child?, step isKnown]
          refine congrArg _ (funext fun space => foldlM_congr (fun part member space => ?_) space)
          rw [step (others part member)]

theorem resolve? (start : NamespacePath) {target : WrittenPath}
    (known : ∀ part ∈ target.path.segments, names part) :
    new.resolve? start target = old.resolve? start target :=
  keeps.resolveWithin (aliasLimit + 1) start known

theorem alias? (owner : NamespacePath) {name : String} (known : names name) :
    new.alias? owner name = old.alias? owner name := by
  rw [Catalog.alias?, Catalog.alias?, keeps.aliasTarget? owner known]
  cases found : old.aliasTarget? owner name with
  | none => rfl
  | some target =>
      exact keeps.resolveWithin aliasLimit owner (keeps.written owner known found)

end Keeps

/-- The namespaces `name` that are found in `owner` through shared directives. -/
theorem filterMap_directivesIn (catalog : Catalog) (owner : NamespacePath) (name : String) :
    ((catalog.directivesIn owner).filterMap (catalog.resolve? owner)).filterMap
        (catalog.child? · name) =
      ((catalog.supplying name).filter (·.owner == owner)).filterMap fun entry =>
        (catalog.resolve? owner entry.target).bind (catalog.child? · name) := by
  rw [directivesIn, List.filterMap_map, List.filterMap_filterMap, supplying, List.filter_comm,
    List.filterMap_filter (l := catalog.directives.filter (·.owner == owner))]
  refine List.filterMap_congr fun entry member => ?_
  have here : entry.owner = owner := by simpa using (List.mem_filter.mp member).2
  rw [here]
  cases found : (catalog.resolve? owner entry.target).bind (catalog.child? · name) with
  | none => simpa using found
  | some space => simpa using found

theorem Keeps.filterMap_directivesIn {names : String → Prop} {old new : Catalog}
    (keeps : Keeps names old new) (owner : NamespacePath) {name : String} (known : names name) :
    ((new.directivesIn owner).filterMap (new.resolve? owner)).filterMap (new.child? · name) =
      ((old.directivesIn owner).filterMap (old.resolve? owner)).filterMap (old.child? · name) := by
  rw [Catalog.filterMap_directivesIn, Catalog.filterMap_directivesIn, keeps.directives name known]
  refine List.filterMap_congr fun entry member => ?_
  rw [keeps.resolve? owner (keeps.directiveNames name known entry (List.mem_filter.mp member).1)]
  simp only [keeps.child?]

end Catalog

namespace Environment

/-- A statement through which lookup can find a namespace `name` where the statement is in effect. -/
def supplies (environment : Environment) (name : String) (item : ResolvedUsing) : Bool :=
  match item.entry.statement.kind with
  | .directive => (item.space.bind (environment.catalog.child? · name)).isSome
  | .namespaceAlias => item.entry.newName == some name
  | .declaration => false

/-- What an alias `name` in one scope stands for. -/
def aliasIn? (name : String) (level : Nat) (item : ResolvedUsing) : Option (Option NamespacePath) :=
  if item.entry.statement.kind == .namespaceAlias && item.entry.scope == level &&
      item.entry.newName == some name then some item.space
  else none

/-- The namespace `name` that a directive in one scope makes visible. -/
def childIn? (environment : Environment) (name : String) (level : Nat) (item : ResolvedUsing) :
    Option NamespacePath :=
  if item.entry.statement.kind == .directive && item.entry.scope == level then
    item.space.bind (environment.catalog.child? · name)
  else none

/-- The namespaces that shared directives make visible in one scope. -/
def sharedAt (environment : Environment) (level : Nat) : List NamespacePath :=
  let scope := environment.outline.scope level
  match scope.kind with
  | .global | .named _ =>
      (environment.catalog.directivesIn scope.path).filterMap
        (environment.catalog.resolve? scope.path)
  | _ => []

section Behind

variable {environment : Environment} {offset : Nat}
  (front : ∀ item ∈ environment.usings, item.entry.statement.start < offset)

include front

theorem aliasAt_of_front (name : String) (level : Nat) :
    environment.aliasAt offset name level =
      (environment.usings.filterMap (aliasIn? name level)).getLast?.join := by
  have same : environment.usings.filterMap (aliasIn? name level) =
      ((environment.usingsIn level offset .namespaceAlias).filter
        (·.entry.newName == some name)).map (·.space) := by
    rw [usingsIn, List.filter_filter, ← List.filterMap_eq_map, List.filterMap_filter]
    refine List.filterMap_congr fun item member => ?_
    simp [aliasIn?, front item member, and_comm]
  rw [same, List.getLast?_map, aliasAt]
  cases List.getLast? _ with
  | none => rfl
  | some item => rfl

theorem directivesAt_of_front (name : String) (level : Nat) :
    (environment.directivesAt offset level).filterMap
        (fun directive => environment.catalog.child? directive.nominated name) =
      environment.usings.filterMap (environment.childIn? name level) ++
        (environment.sharedAt level).filterMap (environment.catalog.child? · name) := by
  have written : ((environment.usingsIn level offset .directive).filterMap (·.space)).filterMap
      (environment.catalog.child? · name) =
      environment.usings.filterMap (environment.childIn? name level) := by
    rw [usingsIn, List.filterMap_filterMap, List.filterMap_filter]
    refine List.filterMap_congr fun item member => ?_
    simp [childIn?, front item member]
  rw [← written, ← List.filterMap_append, directivesAt, List.filterMap_map]
  rfl

end Behind

/-- `new` has the statements of `old` that are left, in order; those of one set name what they have named
before. -/
def Kept (removed : ScopedUsing → Bool) (trusted : ScopedUsing → Prop) (old new : List ResolvedUsing) :
    Prop :=
  List.Forall₂ (fun item other => item.entry.Moved other.entry ∧
    (trusted item.entry → other.space = item.space)) (old.filter fun item => !removed item.entry) new

/-- A statement in front of the entry and in a scope around it, through which the first name of the entry
can be found, is left and belongs to the set. -/
structure Relies (removed : ScopedUsing → Bool) (trusted : ScopedUsing → Prop)
    (before after : Environment) (entry : ScopedUsing) : Prop where
  stays : ∀ first ∈ entry.sought?, ∀ item ∈ before.usings,
    item.entry.statement.start < entry.statement.start →
      item.entry.scope ∈ before.outline.ancestors entry.scope →
      before.supplies first item = true → removed item.entry = false
  trusted : ∀ first ∈ entry.sought?, ∀ item ∈ before.usings,
    item.entry.statement.start < entry.statement.start →
      item.entry.scope ∈ before.outline.ancestors entry.scope →
      removed item.entry = false → ∀ other ∈ after.usings, item.entry.Moved other.entry →
      before.supplies first item = true ∨ after.supplies first other = true → trusted item.entry

theorem supplies_of_aliasIn? (environment : Environment) {name : String} {level : Nat}
    (item : ResolvedUsing) (found : aliasIn? name level item ≠ none) :
    item.entry.scope = level ∧ environment.supplies name item = true := by
  unfold aliasIn? at found
  split at found
  next same =>
    simp only [Bool.and_eq_true, beq_iff_eq] at same
    obtain ⟨⟨kind, scope⟩, named⟩ := same
    exact ⟨scope, by simp [supplies, kind, named]⟩
  next => exact absurd rfl found

theorem supplies_of_childIn? (environment : Environment) {name : String} {level : Nat}
    (item : ResolvedUsing) (found : environment.childIn? name level item ≠ none) :
    item.entry.scope = level ∧ environment.supplies name item = true := by
  unfold childIn? at found
  split at found
  next same =>
    simp only [Bool.and_eq_true, beq_iff_eq] at same
    obtain ⟨kind, scope⟩ := same
    exact ⟨scope, by simpa [supplies, kind, ← Option.ne_none_iff_isSome] using found⟩
  next => exact absurd rfl found

section Kept

variable {removed : ScopedUsing → Bool} {trusted : ScopedUsing → Prop} {names : String → Prop}
  {before after : Environment} {old new : ScopedUsing}
  (loses : before.outline.Loses removed after.outline)
  (keeps : before.catalog.Keeps names after.catalog)
  (kept : Kept removed trusted before.usings after.usings)
  (moved : old.Moved new)
  (relies : Relies removed trusted before after old)
  (known : ∀ part ∈ old.target.segments, names part)
  (frontOld : ∀ item ∈ before.usings, item.entry.statement.start < old.statement.start)
  (frontNew : ∀ item ∈ after.usings, item.entry.statement.start < new.statement.start)

include keeps in
theorem namespaceMember_kept (space : NamespacePath) {name : String} (isKnown : names name) :
    after.namespaceMember space name = before.namespaceMember space name := by
  rw [namespaceMember, namespaceMember, keeps.child?, keeps.alias? space isKnown]

include loses keeps in
theorem sharedAt_kept (level : Nat) {name : String} (isKnown : names name) :
    (after.sharedAt level).filterMap (after.catalog.child? · name) =
      (before.sharedAt level).filterMap (before.catalog.child? · name) := by
  have shared (owner : NamespacePath) := keeps.filterMap_directivesIn owner isKnown
  simp only [sharedAt, loses.kind, loses.path]
  split
  next => exact shared _
  next => exact shared _
  next => rfl

include loses keeps kept moved relies frontOld frontNew

omit loses keeps moved frontNew in
theorem filterMap_kept {γ : Type} {f g : ResolvedUsing → Option γ} {first : String} {level : Nat}
    (isFirst : first ∈ old.sought?) (around : level ∈ before.outline.ancestors old.scope)
    (before_supplies : ∀ item, f item ≠ none →
      item.entry.scope = level ∧ before.supplies first item = true)
    (after_supplies : ∀ item, g item ≠ none →
      item.entry.scope = level ∧ after.supplies first item = true)
    (same : ∀ item other, item.entry.Moved other.entry → other.space = item.space → f item = g other) :
    before.usings.filterMap f = after.usings.filterMap g := by
  refine filterMap_eq_of_filter kept ?_ ?_
  · intro item member isRemoved
    by_contra found
    obtain ⟨rfl, supplied⟩ := before_supplies item found
    simp [relies.stays first isFirst item member (frontOld item member) around supplied] at isRemoved
  · intro item member other inAfter isLeft ⟨moved, still⟩
    have stays : removed item.entry = false := by simpa using isLeft
    cases here : f item with
    | some result =>
        obtain ⟨rfl, supplied⟩ := before_supplies item (by simp [here])
        rw [← here]
        have trusts := relies.trusted first isFirst item member (frontOld item member) around stays
          other inAfter moved (.inl supplied)
        exact same item other moved (still trusts)
    | none =>
        by_contra found
        obtain ⟨level', supplied⟩ := after_supplies other (Ne.symm found)
        have trusts := relies.trusted first isFirst item member (frontOld item member)
          (moved.scope ▸ level' ▸ around) stays other inAfter moved (.inr supplied)
        exact found (here ▸ same item other moved (still trusts))

theorem findNamespace_kept {first : String} (isFirst : first ∈ old.sought?) (isKnown : names first) :
    after.findNamespace new.scope new.statement.start first =
      before.findNamespace old.scope old.statement.start first := by
  have aliases (level : Nat) (around : level ∈ before.outline.ancestors old.scope) :
      after.aliasAt new.statement.start first level =
        before.aliasAt old.statement.start first level := by
    rw [aliasAt_of_front frontNew, aliasAt_of_front frontOld,
      filterMap_kept kept relies frontOld isFirst around (supplies_of_aliasIn? before)
        (supplies_of_aliasIn? after) (g := aliasIn? first level)]
    intro item other moved still
    simp only [aliasIn?, moved.kind, moved.scope, moved.newName, still]
  have directives (level : Nat) (around : level ∈ before.outline.ancestors old.scope) :
      (after.directivesAt new.statement.start level).filterMap
          (fun directive => after.catalog.child? directive.nominated first) =
        (before.directivesAt old.statement.start level).filterMap
          fun directive => before.catalog.child? directive.nominated first := by
    rw [directivesAt_of_front frontNew, directivesAt_of_front frontOld,
      sharedAt_kept loses keeps level isKnown,
      filterMap_kept kept relies frontOld isFirst around (supplies_of_childIn? before)
        (supplies_of_childIn? after) (g := after.childIn? first level)]
    intro item other moved still
    simp only [childIn?, moved.kind, moved.scope, still, keeps.child?]
  have inScopes : (before.outline.ancestors old.scope).findSome?
        (after.namespaceAt new.statement.start first) =
      (before.outline.ancestors old.scope).findSome?
        (before.namespaceAt old.statement.start first) := by
    rw [← List.head?_filterMap, ← List.head?_filterMap]
    refine congrArg _ (List.filterMap_congr fun level around => ?_)
    simp only [namespaceAt, aliases level around, loses.kind, loses.path,
      namespaceMember_kept keeps _ isKnown]
  have visible : (after.visibleDirectives new.scope new.statement.start).findSome?
        (fun directive => after.catalog.child? directive.nominated first) =
      (before.visibleDirectives old.scope old.statement.start).findSome?
        fun directive => before.catalog.child? directive.nominated first := by
    rw [visibleDirectives, visibleDirectives, ← List.head?_filterMap, ← List.head?_filterMap,
      List.filterMap_flatMap, List.filterMap_flatMap, loses.ancestors, moved.scope]
    refine congrArg _ (congrArg _ (List.map_congr_left fun level around => directives level around))
  rw [findNamespace, findNamespace, loses.ancestors, moved.scope, inScopes, ← visible, moved.scope]

include known in
/-- The statement names what it has named before. -/
theorem spaceOf_kept : after.spaceOf new = before.spaceOf old := by
  have resolves {parts : List String} (prefixed : parts <+: old.target.segments) :
      after.resolveWritten new.scope new.statement.start ⟨new.absolute, ⟨parts⟩⟩ =
        before.resolveWritten old.scope old.statement.start ⟨old.absolute, ⟨parts⟩⟩ := by
    cases parts with
    | nil => rfl
    | cons first rest =>
        obtain ⟨more, target⟩ := prefixed
        rw [← target] at known
        obtain ⟨isKnown, others⟩ := List.forall_mem_cons.mp known
        have descends (space : NamespacePath) := foldlM_congr
          (fun name member (space : NamespacePath) => congrArg (Option.map (·.1))
            (namespaceMember_kept keeps space (others name (List.mem_append_left more member)))) space
        simp only [resolveWritten, moved.absolute, descends, namespaceMember_kept keeps _ isKnown]
        cases absolute : old.absolute with
        | true => rfl
        | false =>
            have isFirst : first ∈ old.sought? := by
              simp [ScopedUsing.sought?, absolute, ← target]
            rw [findNamespace_kept loses keeps kept moved relies frontOld frontNew isFirst isKnown]
  simp only [spaceOf, moved.kind, moved.target]
  cases old.statement.kind with
  | directive => exact resolves (List.prefix_refl _)
  | namespaceAlias => exact resolves (List.prefix_refl _)
  | declaration =>
      have qualifier := resolves (List.dropLast_prefix _)
      dsimp only
      cases parts : old.target.segments.dropLast with
      | nil => simp only [moved.absolute]
      | cons first rest =>
          rw [parts] at qualifier
          exact qualifier

end Kept

theorem foldl_addUsing (environment : Environment) (entries : List ScopedUsing) :
    ∃ later, entries.foldl addUsing environment =
      { environment with usings := environment.usings ++ later } := by
  induction entries generalizing environment with
  | nil => exact ⟨[], by simp⟩
  | cons entry entries ih =>
      obtain ⟨later, same⟩ := ih (environment.addUsing entry)
      refine ⟨⟨entry, environment.spaceOf entry⟩ :: later, ?_⟩
      rw [List.foldl_cons, same]
      simp [addUsing]

theorem ofOutline_catalog (outline : Outline) (catalog : Catalog) :
    (ofOutline outline catalog).catalog = catalog := by
  obtain ⟨later, same⟩ := foldl_addUsing ⟨outline, catalog, []⟩ outline.usings
  rw [ofOutline, same]

section Run

variable {removed : ScopedUsing → Bool} {trusted : ScopedUsing → Prop} {names : String → Prop}
  {before after : Environment} {olds news : List ScopedUsing}

/-- What a statement relies on among all statements, it relies on among the first ones. -/
theorem Relies.of_foldl {entry : ScopedUsing}
    (relies : Relies removed trusted (olds.foldl addUsing before) (news.foldl addUsing after) entry) :
    Relies removed trusted before after entry := by
  obtain ⟨later, old⟩ := foldl_addUsing before olds
  obtain ⟨later', new⟩ := foldl_addUsing after news
  rw [old, new] at relies
  refine ⟨fun first isFirst item member =>
    relies.stays first isFirst item (List.mem_append_left _ member), ?_⟩
  exact fun first isFirst item member front around stays other inAfter =>
    relies.trusted first isFirst item (List.mem_append_left _ member) front around stays other
      (List.mem_append_left _ inAfter)

/-- The entries that have been resolved and those that are still to be resolved stand in the order of the
text. -/
def Ascends (environment : Environment) (entries : List ScopedUsing) : Prop :=
  (environment.usings.map (·.entry) ++ entries).Pairwise fun earlier later =>
    earlier.statement.start < later.statement.start

theorem Ascends.front {environment : Environment} {entry : ScopedUsing} {entries : List ScopedUsing}
    (ascends : environment.Ascends (entry :: entries)) :
    ∀ item ∈ environment.usings, item.entry.statement.start < entry.statement.start :=
  fun _ member => (List.pairwise_append.mp ascends).2.2 _ (List.mem_map_of_mem member) entry
    List.mem_cons_self

theorem Ascends.addUsing {environment : Environment} {entry : ScopedUsing} {entries : List ScopedUsing}
    (ascends : environment.Ascends (entry :: entries)) :
    (environment.addUsing entry).Ascends entries := by
  simpa [Ascends, Environment.addUsing] using ascends

/-- One statement after the other, those of the set that are left name what they have named before. -/
theorem kept_foldl (loses : before.outline.Loses removed after.outline)
    (keeps : before.catalog.Keeps names after.catalog)
    (moved : List.Forall₂ ScopedUsing.Moved (olds.filter fun entry => !removed entry) news)
    (kept : Kept removed trusted before.usings after.usings)
    (ascendsOld : before.Ascends olds) (ascendsNew : after.Ascends news)
    (relies : ∀ entry ∈ olds, removed entry = false → trusted entry →
      (∀ part ∈ entry.target.segments, names part) ∧
        Relies removed trusted (olds.foldl addUsing before) (news.foldl addUsing after) entry) :
    Kept removed trusted (olds.foldl addUsing before).usings (news.foldl addUsing after).usings := by
  induction olds generalizing before after news with
  | nil =>
      obtain rfl := List.forall₂_nil_left_iff.mp moved
      exact kept
  | cons entry olds ih =>
      obtain ⟨here, others⟩ := List.forall_mem_cons.mp relies
      cases isRemoved : removed entry with
      | true =>
          rw [List.filter_cons_of_neg (by simp [isRemoved])] at moved
          rw [List.foldl_cons]
          refine ih loses keeps moved ?_ ascendsOld.addUsing ascendsNew others
          simpa [Kept, addUsing, List.filter_append, isRemoved] using kept
      | false =>
          rw [List.filter_cons_of_pos (by simp [isRemoved])] at moved
          obtain ⟨new, news, same, movedRest, rfl⟩ := List.forall₂_cons_left_iff.mp moved
          rw [List.foldl_cons, List.foldl_cons]
          refine ih loses keeps movedRest ?_ ascendsOld.addUsing ascendsNew.addUsing others
          have still (trusts : trusted entry) : after.spaceOf new = before.spaceOf entry := by
            obtain ⟨known, relies⟩ := here isRemoved trusts
            exact spaceOf_kept loses keeps kept same relies.of_foldl known ascendsOld.front
              ascendsNew.front
          have last : Kept removed trusted [⟨entry, before.spaceOf entry⟩] [⟨new, after.spaceOf new⟩] := by
            simpa [Kept, isRemoved, same] using still
          rw [Kept, addUsing, List.filter_append]
          exact List.rel_append kept last

end Run

end Environment

end Requalify
