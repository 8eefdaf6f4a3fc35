import Requalify.Proofs.Lookup
import Requalify.Proofs.Lookup.Writable

/-!
Which declaration the search for a member gives. Imports of the name and directives lead from one namespace
to others, in any number of steps and also in circles. The search remembers the namespaces that it has
passed and comes to an end without any other bound. It goes through all that can be reached unless one of
them declares the name, so a namespace that has been passed without success hides nothing.
-/

namespace Requalify

namespace Catalog

/-- The namespaces that a member `name` of `start` can come from: `start` itself, and with each of them the
sources of its imports of the name and the namespaces that its directives nominate. -/
inductive Reaches (catalog : Catalog) (name : String) (start : NamespacePath) : NamespacePath → Prop
  | itself : Reaches catalog name start start
  | imported {owner space : NamespacePath} {target : WrittenPath}
      (reached : Reaches catalog name start owner) (written : target ∈ catalog.importsIn owner name)
      (source : catalog.importSource? owner target = some space) : Reaches catalog name start space
  | nominated {owner space : NamespacePath} {target : WrittenPath}
      (reached : Reaches catalog name start owner) (written : target ∈ catalog.directivesIn owner)
      (nominee : catalog.resolve? owner target = some space) : Reaches catalog name start space

/-- A search in depth through the pending namespaces, which passes each namespace once, and its result. -/
inductive Searches (catalog : Catalog) (name : String) :
    List NamespacePath → List NamespacePath → Option Declaration → Prop
  | exhausted {passed : List NamespacePath} : Searches catalog name passed [] none
  | again {passed pending : List NamespacePath} {owner : NamespacePath} {result : Option Declaration}
      (known : owner ∈ passed) (rest : Searches catalog name passed pending result) :
      Searches catalog name passed (owner :: pending) result
  | declared {passed pending : List NamespacePath} {owner : NamespacePath} {declaration : Declaration}
      (new : owner ∉ passed) (member : catalog.member? owner name = some declaration) :
      Searches catalog name passed (owner :: pending) (some declaration)
  | beyond {passed pending : List NamespacePath} {owner : NamespacePath} {result : Option Declaration}
      (new : owner ∉ passed) (missing : catalog.member? owner name = none)
      (rest : Searches catalog name (owner :: passed) (catalog.sources name owner ++ pending) result) :
      Searches catalog name passed (owner :: pending) result

variable {catalog : Catalog} {name : String}

theorem Reaches.source {start owner space : NamespacePath} (reached : catalog.Reaches name start owner)
    (member : space ∈ catalog.sources name owner) : catalog.Reaches name start space := by
  rcases List.mem_append.mp member with fromImport | fromDirective
  · obtain ⟨target, written, source⟩ := List.mem_filterMap.mp fromImport
    exact reached.imported written source
  · obtain ⟨target, written, nominee⟩ := List.mem_filterMap.mp fromDirective
    exact reached.nominated written nominee

/-- What is closed under sources holds all that can be reached from it. -/
theorem Reaches.mem_of_closed {searched : List NamespacePath}
    (closed : ∀ owner ∈ searched, ∀ space ∈ catalog.sources name owner, space ∈ searched)
    {start space : NamespacePath} (first : start ∈ searched) (reached : catalog.Reaches name start space) :
    space ∈ searched := by
  induction reached with
  | itself => exact first
  | imported reached written source ih =>
      exact closed _ ih _ (List.mem_append_left _ (List.mem_filterMap.mpr ⟨_, written, source⟩))
  | nominated reached written nominee ih =>
      exact closed _ ih _ (List.mem_append_right _ (List.mem_filterMap.mpr ⟨_, written, nominee⟩))

theorem resolve?_mem {start space : NamespacePath} {target : WrittenPath}
    (found : catalog.resolve? start target = some space) :
    space ∈ catalog.namespaces.map (·.path) := by
  refine resolveWithin_keeps ?_ found
  exact fun _ member => List.mem_map_of_mem member

/-- The sources of a namespace are among those that a search reckons with. -/
theorem mem_reachable_of_source (start : NamespacePath) {owner space : NamespacePath}
    (member : space ∈ catalog.sources name owner) : space ∈ catalog.reachable start := by
  have known {owner : NamespacePath} {target : WrittenPath}
      (found : catalog.resolve? owner target = some space) : space ∈ catalog.reachable start :=
    List.mem_cons_of_mem _ (List.mem_cons_of_mem _ (resolve?_mem found))
  rcases List.mem_append.mp member with fromImport | fromDirective
  · obtain ⟨target, -, source⟩ := List.mem_filterMap.mp fromImport
    unfold importSource? at source
    split at source
    next =>
      split at source
      next =>
        obtain rfl := Option.some.inj source
        exact List.mem_cons_of_mem _ List.mem_cons_self
      next => simp at source
    next => exact known source
  · obtain ⟨target, -, nominee⟩ := List.mem_filterMap.mp fromDirective
    exact known nominee

/-- The namespaces that are not among the unseen ones are those that have been passed. -/
theorem searches_searchFrom {spaces unseen passed pending : List NamespacePath}
    (closed : ∀ owner, ∀ space ∈ catalog.sources name owner, space ∈ spaces)
    (inside : ∀ space ∈ pending, space ∈ spaces)
    (parts : ∀ space ∈ spaces, space ∈ unseen ↔ space ∉ passed) :
    catalog.Searches name passed pending (catalog.searchFrom name unseen pending) := by
  fun_induction searchFrom catalog name unseen pending generalizing passed with
  | case1 => exact .exhausted
  | case2 unseen owner pending isUnseen declaration member =>
      exact .declared ((parts owner (inside owner List.mem_cons_self)).mp isUnseen) member
  | case3 unseen owner pending isUnseen missing ih =>
      obtain ⟨here, others⟩ := List.forall_mem_cons.mp inside
      refine .beyond ((parts owner here).mp isUnseen) missing (ih ?_ ?_)
      · exact List.forall_mem_append.mpr ⟨closed owner, others⟩
      · intro space known
        simp [without, parts space known, and_comm]
  | case4 unseen owner pending isSeen ih =>
      obtain ⟨here, others⟩ := List.forall_mem_cons.mp inside
      have known : owner ∈ passed := by
        simpa [isSeen] using parts owner here
      exact .again known (ih others parts)

theorem Searches.unique {passed pending : List NamespacePath} {left right : Option Declaration}
    (first : catalog.Searches name passed pending left)
    (second : catalog.Searches name passed pending right) : left = right := by
  induction first with
  | exhausted =>
      cases second with
      | exhausted => rfl
  | again known rest ih =>
      cases second with
      | again _ rest => exact ih rest
      | declared new => exact absurd known new
      | beyond new => exact absurd known new
  | declared new member =>
      cases second with
      | again known => exact absurd known new
      | declared _ other => exact member.symm.trans other
      | beyond _ missing => simp [member] at missing
  | beyond new missing rest ih =>
      cases second with
      | again known => exact absurd known new
      | declared _ member => simp [member] at missing
      | beyond _ _ rest => exact ih rest

theorem Searches.reaches {start : NamespacePath} {passed pending : List NamespacePath}
    {result : Option Declaration} (searches : catalog.Searches name passed pending result)
    (reached : ∀ space ∈ pending, catalog.Reaches name start space) {declaration : Declaration}
    (found : result = some declaration) :
    ∃ space, catalog.Reaches name start space ∧ catalog.member? space name = some declaration := by
  induction searches with
  | exhausted => simp at found
  | again known rest ih => exact ih (List.forall_mem_cons.mp reached).2 found
  | declared new member => exact ⟨_, reached _ List.mem_cons_self, found ▸ member⟩
  | beyond new missing rest ih =>
      obtain ⟨here, others⟩ := List.forall_mem_cons.mp reached
      exact ih (List.forall_mem_append.mpr ⟨fun _ => here.source, others⟩) found

/-- A namespace that has been passed does not declare the name, and its sources are passed or pending. -/
def Passes (catalog : Catalog) (name : String) (passed pending : List NamespacePath) : Prop :=
  ∀ owner ∈ passed, catalog.member? owner name = none ∧
    ∀ space ∈ catalog.sources name owner, space ∈ passed ∨ space ∈ pending

/-- A pending namespace can be taken out once it is passed. -/
theorem Passes.sources {passed pending passed' pending' : List NamespacePath} {owner : NamespacePath}
    (passes : catalog.Passes name passed (owner :: pending)) (before : passed ⊆ passed')
    (known : owner ∈ passed') (later : pending ⊆ pending') :
    ∀ space ∈ passed, catalog.member? space name = none ∧
      ∀ source ∈ catalog.sources name space, source ∈ passed' ∨ source ∈ pending' := by
  intro space member
  obtain ⟨missing, sources⟩ := passes space member
  refine ⟨missing, fun source inSources => ?_⟩
  rcases sources source inSources with old | waiting
  · exact .inl (before old)
  · rcases List.mem_cons.mp waiting with rfl | waiting
    · exact .inl known
    · exact .inr (later waiting)

/-- A search without a result has passed whatever was pending, and all sources of what it has passed. -/
theorem Searches.passes {passed pending : List NamespacePath} {result : Option Declaration}
    (searches : catalog.Searches name passed pending result) (nothing : result = none)
    (passes : catalog.Passes name passed pending) :
    ∃ searched, passed ⊆ searched ∧ pending ⊆ searched ∧ catalog.Passes name searched [] := by
  induction searches with
  | exhausted => exact ⟨_, List.Subset.refl _, List.nil_subset _, passes⟩
  | again known rest ih =>
      obtain ⟨searched, before, later, done⟩ :=
        ih nothing (passes.sources (List.Subset.refl _) known (List.Subset.refl _))
      exact ⟨searched, before, List.cons_subset.mpr ⟨before known, later⟩, done⟩
  | declared new member => simp at nothing
  | @beyond passed pending owner result new missing rest ih =>
      have further : catalog.Passes name (owner :: passed) (catalog.sources name owner ++ pending) :=
        List.forall_mem_cons.mpr
          ⟨⟨missing, fun source inSources => .inr (List.mem_append_left _ inSources)⟩,
            passes.sources (List.subset_cons_self _ _) List.mem_cons_self
              (List.subset_append_right _ _)⟩
      obtain ⟨searched, before, later, done⟩ := ih nothing further
      obtain ⟨here, before⟩ := List.cons_subset.mp before
      obtain ⟨-, later⟩ := List.append_subset.mp later
      exact ⟨searched, before, List.cons_subset.mpr ⟨here, later⟩, done⟩

theorem searches_find? (catalog : Catalog) (owner : NamespacePath) (name : String) :
    catalog.Searches name [] [owner] (catalog.find? owner name) :=
  searches_searchFrom (fun _ _ member => mem_reachable_of_source owner member)
    (List.forall_mem_singleton.mpr List.mem_cons_self) (by simp)

theorem find?_reaches {owner : NamespacePath} {declaration : Declaration}
    (found : catalog.find? owner name = some declaration) : declaration.name = name ∧
      catalog.Reaches name owner declaration.path ∧
      catalog.member? declaration.path name = some declaration := by
  obtain ⟨space, reached, member⟩ := (searches_find? catalog owner name).reaches
    (List.forall_mem_singleton.mpr Reaches.itself) found
  obtain ⟨isName, rfl⟩ := member?_eq_some member
  exact ⟨isName, reached, member⟩

theorem member?_of_find?_eq_none {owner space : NamespacePath} (nothing : catalog.find? owner name = none)
    (reached : catalog.Reaches name owner space) : catalog.member? space name = none := by
  obtain ⟨searched, -, pending, passes⟩ :=
    (searches_find? catalog owner name).passes nothing (by simp [Passes])
  have closed : ∀ owner ∈ searched, ∀ space ∈ catalog.sources name owner, space ∈ searched := by
    intro owner member space inSources
    simpa using (passes owner member).2 space inSources
  exact (passes space (reached.mem_of_closed closed (pending List.mem_cons_self))).1

/-- The search for a member ends, whatever circles imports and directives make: without a bound on its steps
it has one result, and that is the one given. There is a declaration exactly if a namespace that can be
reached has a member of that name, and the declaration is such a member. -/
theorem find?_exact (catalog : Catalog) (owner : NamespacePath) (name : String) :
    (∀ result, catalog.Searches name [] [owner] result ↔ result = catalog.find? owner name) ∧
    ((catalog.find? owner name).isSome = true ↔
      ∃ space, catalog.Reaches name owner space ∧ (catalog.member? space name).isSome = true) ∧
    ∀ declaration, catalog.find? owner name = some declaration → declaration.name = name ∧
      catalog.Reaches name owner declaration.path ∧
      catalog.member? declaration.path name = some declaration := by
  have ends := searches_find? catalog owner name
  refine ⟨fun result => ⟨fun searches => searches.unique ends, fun same => same ▸ ends⟩, ?_,
    fun declaration => find?_reaches⟩
  constructor
  · intro found
    obtain ⟨declaration, isFound⟩ := Option.isSome_iff_exists.mp found
    obtain ⟨-, reached, member⟩ := find?_reaches isFound
    exact ⟨declaration.path, reached, by rw [member]; rfl⟩
  · rintro ⟨space, reached, member⟩
    cases found : catalog.find? owner name with
    | some declaration => rfl
    | none => simp [member?_of_find?_eq_none found reached] at member

set_option maxRecDepth 100000 in
/-- Two directives that make a circle, with a member in one of the namespaces and with none. -/
theorem find?_exact_circle :
    let catalog := ofTexts [("namespace a \x7b namespace b \x7b using namespace a; int x; \x7d " ++
      "using namespace b; \x7d", true)]
    let declaration : Declaration := ⟨"x", ⟨["a", "b"]⟩, .variable⟩
    catalog.find? ⟨["a"]⟩ "x" = some declaration ∧
    catalog.Reaches "x" ⟨["a"]⟩ declaration.path ∧
    catalog.member? declaration.path "x" = some declaration ∧
    ¬∃ space, catalog.Reaches "y" ⟨["a"]⟩ space ∧ (catalog.member? space "y").isSome = true := by
  intro catalog declaration
  have evaluated : catalog.find? ⟨["a"]⟩ "x" = some declaration ∧
      (catalog.find? ⟨["a"]⟩ "y").isSome ≠ true := by
    decide +kernel
  obtain ⟨found, nothing⟩ := evaluated
  obtain ⟨-, -, belongs⟩ := find?_exact catalog ⟨["a"]⟩ "x"
  obtain ⟨-, reached, member⟩ := belongs declaration found
  obtain ⟨-, exists_member, -⟩ := find?_exact catalog ⟨["a"]⟩ "y"
  exact ⟨found, reached, member, fun some => nothing (exists_member.mpr some)⟩

end Catalog

end Requalify
