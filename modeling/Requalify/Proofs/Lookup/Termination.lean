import Mathlib.Data.List.Chain
import Mathlib.Order.Filter.AtTopBot.Basic
import Requalify.Proofs.Lookup.OnDemand
import Requalify.Proofs.Lookup.Search
import Requalify.Proofs.Outline.Ancestors

/-!
Lookup on demand comes to an end, whatever aliases and directives shared files have. Namespaces around a
namespace have shorter paths, aliases are followed to a limited depth, and a search for a member visits each
namespace once. The result is that of the catalog.
-/

namespace Requalify

/-- Under all limits that are high enough the result is the same. -/
def EndsWith {α : Type} (run : Nat → Option α) (result : α) : Prop :=
  ∀ᶠ limit in Filter.atTop, run limit = some result

namespace EndsWith

variable {α β : Type}

theorem const (result : α) : EndsWith (fun _ => some result) result :=
  Filter.Eventually.of_forall fun _ => rfl

/-- A call is nested one deeper than what it calls. -/
theorem of_succ {run : Nat → Option α} {result : α} (ends : EndsWith (fun limit => run (limit + 1)) result) :
    EndsWith run result := by
  obtain ⟨bound, enough⟩ := Filter.eventually_atTop.mp ends
  refine Filter.eventually_atTop.mpr ⟨bound + 1, fun limit more => ?_⟩
  obtain ⟨less, rfl⟩ := Nat.exists_eq_add_of_le more
  rw [Nat.add_right_comm]
  exact enough (bound + less) (Nat.le_add_right bound less)

theorem unique {run : Nat → Option α} {left right : α} (first : EndsWith run left)
    (second : EndsWith run right) : left = right := by
  obtain ⟨limit, isFirst, isSecond⟩ := (first.and second).exists
  exact Option.some.inj (isFirst.symm.trans isSecond)

theorem bind {run : Nat → Option α} {next : Nat → α → Option β} {middle : α} {result : β}
    (first : EndsWith run middle) (second : EndsWith (fun limit => next limit middle) result) :
    EndsWith (fun limit => run limit >>= next limit) result := by
  filter_upwards [first, second] with limit isFirst isSecond
  rw [isFirst]
  exact isSecond

theorem mapM {run : Nat → α → Option β} {result : α → β} {items : List α}
    (ends : ∀ item ∈ items, EndsWith (run · item) (result item)) :
    EndsWith (fun limit => items.mapM (run limit)) (items.map result) := by
  induction items with
  | nil => exact const _
  | cons item items ih =>
      obtain ⟨here, others⟩ := List.forall_mem_cons.mp ends
      filter_upwards [here, ih others] with limit isHere areOthers
      rw [List.mapM_cons, isHere, areOthers]
      rfl

theorem findSomeM? {run : Nat → α → Option (Option β)} {result : α → Option β} {items : List α}
    (ends : ∀ item ∈ items, EndsWith (run · item) (result item)) :
    EndsWith (fun limit => items.findSomeM? (run limit)) (items.findSome? result) := by
  induction items with
  | nil => exact const _
  | cons item items ih =>
      obtain ⟨here, others⟩ := List.forall_mem_cons.mp ends
      filter_upwards [here, ih others] with limit isHere areOthers
      rw [List.findSomeM?_cons, isHere, List.findSome?_cons]
      cases result item with
      | some found => rfl
      | none => exact areOthers

/-- Steps that end as soon as one of them fails. -/
theorem foldlM {step : Nat → β → α → Option (Option β)} {result : β → α → Option β}
    (ends : ∀ start item, EndsWith (step · start item) (result start item)) (items : List α)
    (start : Option β) :
    EndsWith (fun limit => items.foldlM (fun start item => start.elim (some none) (step limit · item)) start)
      (start.bind (items.foldlM result)) := by
  induction items generalizing start with
  | nil =>
      cases start <;> exact const _
  | cons item items ih =>
      cases start with
      | none => exact ih none
      | some start =>
          filter_upwards [ends start item, ih (result start item)] with limit isHere further
          rw [List.foldlM_cons, Option.elim_some, isHere]
          exact further

end EndsWith

/-! Aliases and directives of shared files. -/

namespace NamespacePath

/-- The namespaces around a namespace, from its parent on. -/
theorem enclosing_eq (path : NamespacePath) :
    path.enclosing = path :: (path.parent?.map enclosing).getD [] := by
  have all : path.take path.length = path := by
    simp [take, length]
  have front : path.enclosing = path :: ((List.range path.length).map path.take).reverse := by
    rw [enclosing, List.range_succ, List.map_append, List.reverse_append, List.map_singleton, all]
    rfl
  rw [front, parent?]
  split
  next isGlobal =>
    have empty : path.length = 0 := by simpa [length] using isGlobal
    rw [empty]
    rfl
  next inner =>
    have shorter : (⟨path.segments.dropLast⟩ : NamespacePath).length + 1 = path.length := by
      have positive : 0 < path.segments.length := by
        simpa [List.length_pos_iff] using inner
      simp only [length, List.length_dropLast]
      omega
    rw [Option.map_some, Option.getD_some, enclosing, shorter]
    refine congrArg _ (congrArg _ (List.map_congr_left fun count member => ?_))
    have bound := List.mem_range.mp member
    rw [length] at bound
    rw [take, take, List.dropLast_eq_take, List.take_take, Nat.min_eq_left (by omega)]

theorem length_parent_lt {path around : NamespacePath} (isParent : path.parent? = some around) :
    around.length < path.length := by
  unfold parent? at isParent
  split at isParent
  next => simp at isParent
  next inner =>
    obtain rfl := Option.some.inj isParent
    have positive : 0 < path.segments.length := by simpa [List.length_pos_iff] using inner
    simp only [length, List.length_dropLast]
    omega

end NamespacePath

namespace Catalog

/-- The namespace `name` of `space`, a nested one or one that an alias stands for. -/
def stepWithin (catalog : Catalog) (budget : Nat) (space : NamespacePath) (name : String) :
    Option NamespacePath :=
  match catalog.child? space name with
  | some child => some child
  | none => (catalog.aliasTarget? space name).bind (catalog.resolveWithin budget space)

theorem resolveWithin_succ (catalog : Catalog) (budget : Nat) (start : NamespacePath)
    {target : WrittenPath} {first : String} {rest : List String}
    (parts : target.path.segments = first :: rest) :
    catalog.resolveWithin (budget + 1) start target =
      ((if target.absolute then catalog.stepWithin budget NamespacePath.globalPath first
        else start.enclosing.findSome? (catalog.stepWithin budget · first)).bind
          (rest.foldlM (catalog.stepWithin budget))) := by
  rw [resolveWithin.eq_def]
  simp only [parts]
  cases target.absolute with
  | true =>
      change (List.findSome? (catalog.stepWithin budget · first) [NamespacePath.globalPath]).bind _ = _
      rw [List.findSome?_singleton]
      rfl
  | false => rfl

/-- Aliases of one namespace, each naming the next by its name alone and the last one naming `name`, where
no nested namespace has the name of an alias. -/
structure AliasChain (catalog : Catalog) (owner : NamespacePath) (aliases : List String) (name : String) :
    Prop where
  links : (aliases ++ [name]).IsChain fun former next =>
    catalog.aliasTarget? owner former = some ⟨false, ⟨[next]⟩⟩
  apart : ∀ former ∈ aliases, catalog.child? owner former = none

namespace AliasChain

variable {catalog : Catalog} {owner space : NamespacePath} {aliases : List String} {name : String}

theorem resolveWithin_of_step {budget : Nat} {first : String}
    (step : catalog.stepWithin budget owner first = some space) :
    catalog.resolveWithin (budget + 1) owner ⟨false, ⟨[first]⟩⟩ = some space := by
  rw [catalog.resolveWithin_succ budget owner rfl, owner.enclosing_eq]
  simp only [List.findSome?_cons, step]
  rfl

/-- Each alias takes one of the budget, and the name of a nested namespace takes none. -/
theorem stepWithin_head (chain : catalog.AliasChain owner aliases name)
    (isChild : catalog.child? owner name = some space) {budget : Nat} (enough : aliases.length ≤ budget) :
    ∀ first ∈ (aliases ++ [name]).head?, catalog.stepWithin budget owner first = some space := by
  induction aliases generalizing budget with
  | nil =>
      rintro _ ⟨⟩
      simp only [stepWithin, isChild]
  | cons former aliases ih =>
      rintro _ ⟨⟩
      obtain ⟨less, rfl⟩ := Nat.exists_eq_add_of_lt enough
      obtain ⟨next, isNext⟩ : ∃ next, (aliases ++ [name]).head? = some next := by
        cases aliases <;> exact ⟨_, rfl⟩
      obtain ⟨isLink, links⟩ := List.isChain_cons.mp chain.links
      obtain ⟨noChild, apart⟩ := List.forall_mem_cons.mp chain.apart
      simp only [stepWithin, noChild, isLink next isNext, Option.bind_some]
      exact resolveWithin_of_step (ih ⟨links, apart⟩ (Nat.le_add_right _ _) next isNext)

theorem alias?_eq {first : String} (chain : catalog.AliasChain owner (first :: aliases) name)
    (isChild : catalog.child? owner name = some space) (enough : (first :: aliases).length ≤ aliasLimit) :
    catalog.alias? owner first = some space := by
  have step := chain.stepWithin_head isChild enough first rfl
  rwa [stepWithin, chain.apart first List.mem_cons_self] at step

end AliasChain

end Catalog

namespace OnDemand

variable (catalog : Catalog)

section Depth

variable {depth budget : Nat}
  (aliases : ∀ space name, EndsWith (aliasAt catalog · depth space name)
    ((catalog.aliasTarget? space name).bind (catalog.resolveWithin budget space)))

include aliases

theorem stepAt_ends (space : NamespacePath) (name : String) :
    EndsWith (stepAt catalog · depth space name) (catalog.stepWithin budget space name) := by
  apply EndsWith.of_succ
  simp only [stepAt]
  rw [Catalog.stepWithin]
  cases catalog.child? space name with
  | some child => exact .const _
  | none => exact aliases space name

theorem outwardsAt_ends (space : NamespacePath) (name : String) :
    EndsWith (outwardsAt catalog · depth space name)
      (space.enclosing.findSome? (catalog.stepWithin budget · name)) := by
  apply EndsWith.of_succ
  simp only [outwardsAt]
  rw [space.enclosing_eq, List.findSome?_cons]
  refine (stepAt_ends catalog aliases space name).bind ?_
  cases catalog.stepWithin budget space name with
  | some found => exact .const _
  | none =>
      cases isParent : space.parent? with
      | none => exact .const _
      | some around => exact outwardsAt_ends around name
termination_by space.length
decreasing_by exact NamespacePath.length_parent_lt isParent

end Depth

theorem targetAt_ends (depth : Nat) (start : NamespacePath) (target : WrittenPath) :
    EndsWith (targetAt catalog · depth start target)
      (catalog.resolveWithin (Catalog.aliasLimit + 1 - depth) start target) := by
  -- The depth grows by one with each alias, so what is left of the budget falls.
  induction budgetEq : Catalog.aliasLimit + 1 - depth generalizing depth start target with
  | zero =>
      have deep : Catalog.aliasLimit < depth := by omega
      apply EndsWith.of_succ
      simp only [targetAt, if_pos deep]
      rw [Catalog.resolveWithin.eq_def]
      exact .const _
  | succ budget ih =>
      have shallow : ¬Catalog.aliasLimit < depth := by omega
      have aliases (space : NamespacePath) (name : String) : EndsWith (aliasAt catalog · depth space name)
          ((catalog.aliasTarget? space name).bind (catalog.resolveWithin budget space)) := by
        apply EndsWith.of_succ
        simp only [aliasAt]
        cases catalog.aliasTarget? space name with
        | none => exact .const _
        | some written => exact ih (depth + 1) space written (by omega)
      apply EndsWith.of_succ
      simp only [targetAt, if_neg shallow]
      cases parts : target.path.segments with
      | nil =>
          rw [Catalog.resolveWithin.eq_def]
          simp only [parts]
          exact .const _
      | cons first rest =>
          rw [catalog.resolveWithin_succ budget start parts]
          have further := EndsWith.foldlM (stepAt_ends catalog aliases) rest
          cases target.absolute with
          | true => exact (stepAt_ends catalog aliases _ first).bind (further _)
          | false => exact (outwardsAt_ends catalog aliases start first).bind (further _)

theorem target_ends (start : NamespacePath) (written : WrittenPath) :
    EndsWith (target catalog · start written) (catalog.resolve? start written) :=
  targetAt_ends catalog 0 start written

theorem aliasOf_ends (owner : NamespacePath) (name : String) :
    EndsWith (aliasOf catalog · owner name) (catalog.alias? owner name) := by
  apply EndsWith.of_succ
  simp only [aliasOf, aliasAt]
  rw [Catalog.alias?]
  cases catalog.aliasTarget? owner name with
  | none => exact .const _
  | some written => exact targetAt_ends catalog 1 owner written

theorem importSource_ends (owner : NamespacePath) (written : WrittenPath) :
    EndsWith (importSource catalog · owner written) (catalog.importSource? owner written) := by
  unfold importSource Catalog.importSource?
  cases written.path.segments.dropLast with
  | nil => exact .const _
  | cons first rest => exact target_ends catalog owner _

theorem nominated_ends (owner : NamespacePath) :
    EndsWith (fun limit => (catalog.directivesIn owner).mapM (target catalog limit owner))
      ((catalog.directivesIn owner).map (catalog.resolve? owner)) :=
  EndsWith.mapM fun written _ => target_ends catalog owner written

theorem sources_ends (name : String) (owner : NamespacePath) :
    EndsWith (sources catalog · name owner) (catalog.sources name owner) := by
  have imported : EndsWith (fun limit => (catalog.importsIn owner name).mapM (importSource catalog limit owner))
      ((catalog.importsIn owner name).map (catalog.importSource? owner)) :=
    EndsWith.mapM fun written _ => importSource_ends catalog owner written
  filter_upwards [imported, nominated_ends catalog owner] with limit areImported areNominated
  rw [sources, areImported, areNominated]
  simp only [Option.bind_eq_bind, Option.bind_some, List.filterMap_map, Function.id_comp]
  rfl

theorem namespaceMember_ends (environment : Environment) (space : NamespacePath) (name : String) :
    EndsWith (namespaceMember environment.catalog · space name) (environment.namespaceMember space name) := by
  filter_upwards [aliasOf_ends environment.catalog space name] with limit isAlias
  rw [namespaceMember, isAlias, Environment.namespaceMember]
  cases environment.catalog.child? space name <;> rfl

/-! Members of namespaces. -/

section Members

variable {catalog} {name : String}

/-- What is left of a search: nothing behind a declaration, and else the pending namespaces. -/
def Continues (catalog : Catalog) (name : String) (visited pending : List NamespacePath) :
    Option Declaration → Option Declaration → Prop
  | some declaration, result => result = some declaration
  | none, result => catalog.Searches name visited pending result

/-- The search comes to an end, and it is the search through the namespaces that are pending in front. -/
structure EndsLike (catalog : Catalog) (name : String) (visited front : List NamespacePath)
    (run : Nat → Option (Option Declaration × List NamespacePath)) : Prop where
  searches : ∃ found after, EndsWith run (found, after) ∧ visited ⊆ after ∧
    ∀ pending result, Continues catalog name after pending found result →
      catalog.Searches name visited (front ++ pending) result

theorem foldlM_found {step : List NamespacePath → NamespacePath →
      Option (Option Declaration × List NamespacePath)} (declaration : Declaration)
    (visited spaces : List NamespacePath) :
    spaces.foldlM (fun (found, visited) space =>
      match found with
      | some declaration => some (some declaration, visited)
      | none => step visited space) (some declaration, visited) =
      some (some declaration, visited) := by
  induction spaces with
  | nil => rfl
  | cons space spaces ih => exact ih

theorem foldlM_endsLike {step : Nat → List NamespacePath → NamespacePath →
      Option (Option Declaration × List NamespacePath)} {spaces visited : List NamespacePath}
    (ends : ∀ space ∈ spaces, ∀ further, visited ⊆ further →
      EndsLike catalog name further [space] (step · further space)) :
    EndsLike catalog name visited spaces fun limit => spaces.foldlM (fun (found, visited) space =>
      match found with
      | some declaration => some (some declaration, visited)
      | none => step limit visited space) (none, visited) := by
  induction spaces generalizing visited with
  | nil =>
      refine ⟨none, visited, .const _, List.Subset.refl _, ?_⟩
      exact fun pending result continues => continues
  | cons space spaces ih =>
      obtain ⟨here, others⟩ := List.forall_mem_cons.mp ends
      obtain ⟨found, after, outcome, more, searches⟩ := here visited (List.Subset.refl _)
      simp only [List.foldlM_cons]
      cases found with
      | some declaration =>
          refine ⟨some declaration, after, ?_, more, ?_⟩
          · refine outcome.bind ?_
            simp only [foldlM_found]
            exact .const _
          · exact fun pending result continues => searches (spaces ++ pending) result continues
      | none =>
          obtain ⟨found, last, rest, further, behind⟩ := ih fun space member later before =>
            others space member later (List.Subset.trans more before)
          refine ⟨found, last, outcome.bind rest, List.Subset.trans more further, ?_⟩
          exact fun pending result continues => searches _ result (behind pending result continues)

/-- What is left of a list behind fewer and fewer of its members. -/
theorem length_unvisited_lt {spaces visited further : List NamespacePath} {owner : NamespacePath}
    (inside : owner ∈ spaces) (new : owner ∉ visited) (more : owner :: visited ⊆ further) :
    (spaces.filter (· ∉ further)).length < (spaces.filter (· ∉ visited)).length := by
  have again : spaces.filter (· ∉ further) =
      (spaces.filter (· ∉ visited)).filter (· ∉ further) := by
    rw [List.filter_filter]
    refine List.filter_congr fun space _ => ?_
    have kept : space ∉ further → space ∉ visited := fun outside known =>
      outside (more (List.mem_cons_of_mem _ known))
    by_cases known : space ∈ further
    · simp [known]
    · simp [known, kept known]
  rw [again]
  refine List.length_filter_lt_length_iff_exists.mpr ⟨owner, ?_, ?_⟩
  · exact List.mem_filter.mpr ⟨inside, by simpa using new⟩
  · simpa using more List.mem_cons_self

theorem memberFrom_endsLike (start : NamespacePath) {owner : NamespacePath}
    (isReachable : owner ∈ catalog.reachable start) (visited : List NamespacePath) :
    EndsLike catalog name visited [owner] (memberFrom catalog name · visited owner) := by
  -- On the namespaces that can be reached and have not been visited. The list of the visited ones only grows,
  -- also from one source to the next.
  induction left : ((catalog.reachable start).filter (· ∉ visited)).length using Nat.strongRecOn
    generalizing visited owner with
  | ind bound ih =>
      by_cases known : owner ∈ visited
      · refine ⟨none, visited, ?_, List.Subset.refl _, fun pending result continues => ?_⟩
        · apply EndsWith.of_succ
          simp only [memberFrom, if_pos known]
          exact .const _
        · exact .again known continues
      · cases member : catalog.member? owner name with
        | some declaration =>
            refine ⟨some declaration, owner :: visited, ?_, List.subset_cons_self _ _, ?_⟩
            · apply EndsWith.of_succ
              simp only [memberFrom, if_neg known, member]
              exact .const _
            · rintro pending result rfl
              exact .declared known member
        | none =>
            have loop : EndsLike catalog name (owner :: visited) (catalog.sources name owner) fun limit =>
                (catalog.sources name owner).foldlM (fun (found, visited) space =>
                  match found with
                  | some declaration => some (some declaration, visited)
                  | none => memberFrom catalog name limit visited space) (none, owner :: visited) := by
              refine foldlM_endsLike fun space isSource further more => ?_
              have fewer := left ▸ length_unvisited_lt isReachable known more
              exact ih _ fewer (Catalog.mem_reachable_of_source start isSource) further rfl
            obtain ⟨found, after, outcome, more, searches⟩ := loop
            refine ⟨found, after, ?_, ?_, fun pending result continues => ?_⟩
            · apply EndsWith.of_succ
              simp only [memberFrom, if_neg known, member]
              exact (sources_ends catalog name owner).bind outcome
            · exact List.Subset.trans (List.subset_cons_self _ _) more
            · exact .beyond known member (searches pending result continues)

theorem find_ends (owner : NamespacePath) :
    EndsWith (find catalog · owner name) (catalog.find? owner name) := by
  obtain ⟨found, after, outcome, -, searches⟩ :=
    @memberFrom_endsLike catalog name owner owner List.mem_cons_self []
  have ends : catalog.Searches name [] [owner] found := by
    refine searches [] found ?_
    cases found with
    | some declaration => rfl
    | none => exact .exhausted
  rw [(Catalog.searches_find? catalog owner name).unique ends]
  exact outcome.bind (.const _)

end Members

end OnDemand

end Requalify
