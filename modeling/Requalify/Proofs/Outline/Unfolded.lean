import Mathlib.Data.List.Forall2
import Requalify.Catalog
import Requalify.Proofs.Outline.Ancestors

/-!
Outlines of texts that say the same except that one has a single scope where the other has several, one
inside the other. The innermost of these holds what the single scope holds, and the others hold nothing.
-/

namespace Requalify

theorem map_eq_of_forall₂ {α β γ : Type} {related : α → β → Prop} {left : List α} {right : List β}
    (pairs : List.Forall₂ related left right) {f : α → γ} {g : β → γ}
    (agree : ∀ item other, related item other → g other = f item) : right.map g = left.map f := by
  induction pairs with
  | nil => rfl
  | cons here _ ih => rw [List.map_cons, List.map_cons, agree _ _ here, ih]

/-- The first of the scopes `ids` in which something is found is not one of `levels`. -/
def EndsOutside {Value : Type} (levels ids : List Nat) (found : Nat → Option Value) : Prop :=
  ∀ level ∈ levels, ids.find? (fun id => (found id).isSome) ≠ some level

instance {Value : Type} (levels ids : List Nat) (found : Nat → Option Value) :
    Decidable (EndsOutside levels ids found) :=
  inferInstanceAs (Decidable (∀ level ∈ levels, _ ≠ _))

namespace EndsOutside

variable {Value : Type} {levels ids : List Nat} {found : Nat → Option Value}

theorem subset {others : List Nat} (outside : EndsOutside levels ids found) (fewer : others ⊆ levels) :
    EndsOutside others ids found :=
  fun level member => outside level (fewer member)

theorem tail {id : Nat} (outside : EndsOutside levels (id :: ids) found) (none : found id = none) :
    EndsOutside levels ids found := by
  intro level member
  have whole := outside level member
  rwa [List.find?_cons_of_neg (by simp [none])] at whole

/-- Nothing is found in the scopes themselves if they come first. -/
theorem append {front : List Nat} (outside : EndsOutside levels (front ++ ids) found)
    (among : ∀ level ∈ front, level ∈ levels) :
    (∀ level ∈ front, found level = none) ∧ EndsOutside levels ids found := by
  induction front with
  | nil => exact ⟨by simp, outside⟩
  | cons level front ih =>
      obtain ⟨isLevel, others⟩ := List.forall_mem_cons.mp among
      have none : found level = none := by
        by_contra some
        refine outside level isLevel (List.find?_cons_of_pos ?_)
        exact Option.isSome_iff_ne_none.mpr some
      obtain ⟨nothing, rest⟩ := ih (outside.tail none) others
      exact ⟨List.forall_mem_cons.mpr ⟨none, nothing⟩, rest⟩

/-- More may be found, but not in the scopes themselves. -/
theorem mono {more : Nat → Option Value} (outside : EndsOutside levels ids found)
    (fewer : ∀ id, (found id).isSome = true → (more id).isSome = true)
    (same : ∀ level ∈ levels, more level = found level) : EndsOutside levels ids more := by
  intro level member ends
  obtain ⟨isFound, front, back, parts, skipped⟩ := List.find?_eq_some_iff_append.mp ends
  refine outside level member (List.find?_eq_some_iff_append.mpr ⟨same level member ▸ isFound, front, back,
    parts, fun id inFront => ?_⟩)
  have nothing := skipped id inFront
  rw [Bool.not_eq_true'] at nothing ⊢
  exact Bool.eq_false_iff.mpr fun isSome => by simp [fewer id isSome] at nothing

end EndsOutside

/-- The scope `scope` of one outline stands inside `more` scopes of the other that have no counterpart.
`same` pairs the offsets of what both texts say. -/
structure Unfolding where
  scope : Nat
  more : Nat
  same : Nat → Nat → Prop
  ascends : ∀ {left right left' right' : Nat}, same left left' → same right right' →
    (left < right ↔ left' < right')

namespace Unfolding

variable (unfolding : Unfolding)

/-- The counterpart of a scope. -/
def move (id : Nat) : Nat :=
  if id < unfolding.scope then id else id + unfolding.more

/-- The scopes without counterpart, innermost first. -/
def added : List Nat :=
  (List.range' unfolding.scope unfolding.more).reverse

/-- The counterpart of a scope and the added scopes directly around it, innermost first. -/
def spread (id : Nat) : List Nat :=
  unfolding.move id :: if id = unfolding.scope then unfolding.added else []

theorem mem_added {level : Nat} : level ∈ unfolding.added ↔
    unfolding.scope ≤ level ∧ level < unfolding.scope + unfolding.more := by
  rw [added, List.mem_reverse, List.mem_range'_1]

theorem move_of_lt {id : Nat} (outer : id < unfolding.scope) : unfolding.move id = id :=
  if_pos outer

theorem move_scope : unfolding.move unfolding.scope = unfolding.scope + unfolding.more :=
  if_neg (Nat.lt_irrefl _)

theorem move_lt_move_iff {left right : Nat} :
    unfolding.move left < unfolding.move right ↔ left < right := by
  unfold move
  split_ifs <;> omega

theorem move_inj {left right : Nat} : unfolding.move left = unfolding.move right ↔ left = right := by
  unfold move
  split_ifs <;> omega

theorem move_not_mem_added (id : Nat) : unfolding.move id ∉ unfolding.added := by
  rw [mem_added, move]
  split_ifs <;> omega

theorem flatMap_spread {Value : Type} {ids : List Nat} {old new : Nat → List Value}
    (moved : ∀ id ∈ ids, new (unfolding.move id) = old id)
    (nothing : unfolding.scope ∈ ids → ∀ level ∈ unfolding.added, new level = []) :
    (ids.flatMap unfolding.spread).flatMap new = ids.flatMap old := by
  rw [List.flatMap_assoc]
  refine List.flatMap_congr fun id member => ?_
  rw [spread, List.flatMap_cons, moved id member]
  split
  next isScope =>
    rw [List.flatMap_eq_nil_iff.mpr (nothing (isScope ▸ member)), List.append_nil]
  next => exact List.append_nil _

/-- The added scopes do not matter to a search that does not end in them. -/
theorem findSome?_spread {Value : Type} {ids : List Nat} {old new : Nat → Option Value}
    (moved : ∀ id ∈ ids, new (unfolding.move id) = old id)
    (outside : EndsOutside unfolding.added (ids.flatMap unfolding.spread) new) :
    (ids.flatMap unfolding.spread).findSome? new = ids.findSome? old := by
  induction ids with
  | nil => rfl
  | cons id ids ih =>
      obtain ⟨here, others⟩ := List.forall_mem_cons.mp moved
      rw [List.flatMap_cons, spread, List.cons_append] at outside ⊢
      rw [List.findSome?_cons, List.findSome?_cons, here]
      cases found : old id with
      | some value => rfl
      | none =>
          have later := outside.tail (here.trans found)
          generalize extraEq : (if id = unfolding.scope then unfolding.added else []) = extra at later ⊢
          have isAdded (level : Nat) (member : level ∈ extra) : level ∈ unfolding.added := by
            rw [← extraEq] at member
            split at member
            next => exact member
            next => simp at member
          obtain ⟨nothing, rest⟩ := later.append isAdded
          rw [List.findSome?_append, List.findSome?_eq_none_iff.mpr nothing, Option.none_or]
          exact ih others rest

end Unfolding

namespace NameChain

/-- What a chain says: its names, and whether it has a leading `::`. -/
def written (chain : NameChain) : WrittenPath :=
  ⟨chain.leading.isSome, chain.path⟩

theorem segments_path (chain : NameChain) :
    chain.path.segments = chain.qualifiers.map (·.1.text) ++ [chain.last.text] := by
  simp [path, names]

theorem head?_segments (chain : NameChain) : chain.path.segments.head? = some chain.first.text := by
  rw [segments_path, first]
  cases chain.qualifiers <;> rfl

end NameChain

variable (unfolding : Unfolding)

structure ScopedUsing.Follows (old new : ScopedUsing) : Prop where
  kind : new.statement.kind = old.statement.kind
  start : unfolding.same old.statement.start new.statement.start
  scope : new.scope = unfolding.move old.scope
  absolute : new.absolute = old.absolute
  target : new.target = old.target
  newName : new.newName = old.newName

structure Mention.Follows (old new : Mention) : Prop where
  written : new.chain.written = old.chain.written
  start : unfolding.same old.chain.start new.chain.start
  scope : new.scope = unfolding.move old.scope

structure Outline.Unfolds (old new : Outline) : Prop where
  kind : ∀ id, (new.scope (unfolding.move id)).kind = (old.scope id).kind
  path : ∀ id, (new.scope (unfolding.move id)).path = (old.scope id).path
  parent : ∀ id, id ≠ unfolding.scope →
    (new.scope (unfolding.move id)).parent = ((old.scope id).parent).map unfolding.move
  /-- The first of the added scopes, or without any the scope itself, has the parent of the scope. -/
  around : ∃ parent < unfolding.scope, (old.scope unfolding.scope).parent = some parent ∧
    (new.scope unfolding.scope).parent = some parent
  isNamespace : (old.scope unfolding.scope).kind.isNamespace = true
  within : ∀ level ∈ unfolding.added, (new.scope (level + 1)).parent = some level
  named : ∀ level ∈ unfolding.added, ∃ isInline, (new.scope level).kind = .named isInline
  declarations : new.declarations.map (fun entry => (entry.name, entry.kind, entry.scope)) =
    old.declarations.map fun entry => (entry.name, entry.kind, unfolding.move entry.scope)
  bindings : new.bindings.map (fun entry => (entry.name, entry.scope)) =
    old.bindings.map fun entry => (entry.name, unfolding.move entry.scope)
  usings : List.Forall₂ (ScopedUsing.Follows unfolding) old.usings new.usings
  mentions : List.Forall₂ (Mention.Follows unfolding) old.mentions new.mentions

namespace Outline.Unfolds

variable {unfolding : Unfolding} {old new : Outline} (unfolds : old.Unfolds unfolding new)

include unfolds

theorem scope_pos : 0 < unfolding.scope := by
  obtain ⟨parent, less, -⟩ := unfolds.around
  exact Nat.lt_of_le_of_lt (Nat.zero_le _) less

/-- The scopes around the scope that is unfolded. -/
theorem ancestors_added {count parent : Nat} (bound : count ≤ unfolding.more)
    (less : parent < unfolding.scope) (found : (new.scope unfolding.scope).parent = some parent) :
    new.ancestors (unfolding.scope + count) =
      (List.range' unfolding.scope (count + 1)).reverse ++ new.ancestors parent := by
  induction count with
  | zero => exact Outline.ancestors_of_parent found less
  | succ count ih =>
      have isAdded : unfolding.scope + count ∈ unfolding.added := unfolding.mem_added.mpr (by omega)
      have inner := unfolds.within _ isAdded
      rw [← Nat.add_assoc, Outline.ancestors_of_parent inner (Nat.lt_succ_self _), ih (by omega),
        List.range'_concat (s := unfolding.scope) (n := count + 1)]
      simp [Nat.add_assoc]

/-- Around the counterpart of a scope are the counterparts of the scopes around it, and the added ones. -/
theorem ancestors_move (id : Nat) :
    new.ancestors (unfolding.move id) = (old.ancestors id).flatMap unfolding.spread := by
  induction id using Nat.strongRecOn with
  | ind id ih =>
      by_cases isScope : id = unfolding.scope
      · subst isScope
        obtain ⟨parent, less, oldParent, newParent⟩ := unfolds.around
        have outer := ih parent less
        rw [unfolding.move_of_lt less] at outer
        rw [Outline.ancestors_of_parent oldParent less, List.flatMap_cons, ← outer,
          unfolding.move_scope, unfolds.ancestors_added (Nat.le_refl _) less newParent,
          Unfolding.spread, if_pos rfl, unfolding.move_scope, List.range'_concat]
        simp [Unfolding.added]
      · have alone : unfolding.spread id = [unfolding.move id] := by
          rw [Unfolding.spread, if_neg isScope]
        have parentEq := unfolds.parent id isScope
        cases found : (old.scope id).parent with
        | none =>
            rw [found] at parentEq
            rw [Outline.ancestors_of_root found, Outline.ancestors_of_root parentEq]
            simp [alone]
        | some parent =>
            rw [found, Option.map_some] at parentEq
            by_cases smaller : parent < id
            · rw [Outline.ancestors_of_parent found smaller, List.flatMap_cons, ← ih parent smaller,
                Outline.ancestors_of_parent parentEq (unfolding.move_lt_move_iff.mpr smaller), alone]
              rfl
            · have larger : ¬ unfolding.move parent < unfolding.move id := by
                rwa [unfolding.move_lt_move_iff]
              rw [Outline.ancestors, Outline.ancestors, found, parentEq]
              simp [smaller, larger, alone]

theorem not_anonymous {level : Nat} (isAdded : level ∈ unfolding.added) :
    ((new.scope level).kind == .anonymous) = false := by
  obtain ⟨isInline, kind⟩ := unfolds.named level isAdded
  rw [kind]
  rfl

theorem isInAnonymous_move (id : Nat) :
    new.isInAnonymous (unfolding.move id) = old.isInAnonymous id := by
  rw [isInAnonymous, isInAnonymous, unfolds.ancestors_move, List.any_flatMap]
  congr 1
  funext level
  rw [Unfolding.spread, List.any_cons, unfolds.kind]
  split
  next =>
    rw [List.any_eq_false.mpr fun other member => by simp [unfolds.not_anonymous member],
      Bool.or_false]
  next => simp

theorem namespaceOf_move (id : Nat) :
    new.namespaceOf (unfolding.move id) = unfolding.move (old.namespaceOf id) := by
  have found (ids : List Nat) :
      (ids.flatMap unfolding.spread).find? (fun id => (new.scope id).kind.isNamespace) =
        (ids.find? fun id => (old.scope id).kind.isNamespace).map unfolding.move := by
    induction ids with
    | nil => rfl
    | cons id ids ih =>
        rw [List.flatMap_cons, Unfolding.spread, List.cons_append, List.find?_cons, List.find?_cons,
          unfolds.kind]
        cases isNamespace : (old.scope id).kind.isNamespace with
        | true => rfl
        | false =>
            have notScope : id ≠ unfolding.scope := by
              rintro rfl
              simp [unfolds.isNamespace] at isNamespace
            rw [if_neg notScope]
            exact ih
  rw [namespaceOf, namespaceOf, unfolds.ancestors_move, found]
  cases (old.ancestors id).find? _ with
  | none => exact (unfolding.move_of_lt unfolds.scope_pos).symm
  | some around => rfl

theorem binds_move (id : Nat) (name : String) :
    new.binds (unfolding.move id) name = old.binds id name := by
  have through (outline : Outline) (level : Nat) : outline.binds level name =
      (outline.bindings.map fun entry => (entry.name, entry.scope)).any
        fun entry => entry.2 == level && entry.1 == name := by
    rw [binds, List.any_map]
    rfl
  rw [through, unfolds.bindings, List.any_map, binds]
  congr 1
  funext entry
  have iff := @Unfolding.move_inj unfolding entry.scope id
  simp only [Function.comp_apply, Bool.beq_eq_decide_eq, iff]

theorem binds_added {level : Nat} (isAdded : level ∈ unfolding.added) (name : String) :
    new.binds level name = false := by
  rw [binds, List.any_eq_false]
  intro entry member
  have pair := List.mem_map_of_mem (f := fun entry : Binding => (entry.name, entry.scope)) member
  rw [unfolds.bindings] at pair
  obtain ⟨other, -, eq⟩ := List.mem_map.mp pair
  have apart : entry.scope ≠ level := by
    rintro rfl
    exact unfolding.move_not_mem_added other.scope ((Prod.mk.inj eq).2 ▸ isAdded)
  simp [apart]

end Outline.Unfolds

end Requalify
