import Requalify.Outline

/-!
The tree of scopes. Parents have smaller numbers, so the scopes around a scope are found by following
parents. In a laminar outline the spans follow the tree, and the last scope whose span contains an offset
is the innermost one.
-/

namespace Requalify

namespace Span

/-- Each offset of `inner` is one of `outer`. -/
def Within (inner outer : Span) : Prop :=
  outer.start ≤ inner.start ∧ inner.stop ≤ outer.stop

instance (inner outer : Span) : Decidable (inner.Within outer) :=
  inferInstanceAs (Decidable (_ ∧ _))

theorem Within.refl (span : Span) : span.Within span :=
  ⟨Nat.le_refl _, Nat.le_refl _⟩

theorem Within.trans {first second third : Span} (left : first.Within second)
    (right : second.Within third) : first.Within third :=
  ⟨Nat.le_trans right.1 left.1, Nat.le_trans left.2 right.2⟩

theorem Within.contains {inner outer : Span} (within : inner.Within outer) {offset : Nat}
    (inside : inner.Contains offset) : outer.Contains offset :=
  ⟨Nat.le_trans within.1 inside.1, Nat.lt_of_lt_of_le inside.2 within.2⟩

end Span

namespace Outline

section Ancestors

variable {outline : Outline} {id other parent : Nat}

theorem ancestors_of_parent (found : (outline.scope id).parent = some parent) (smaller : parent < id) :
    outline.ancestors id = id :: outline.ancestors parent := by
  rw [ancestors]
  simp [found, smaller]

theorem ancestors_of_root (root : (outline.scope id).parent = none) : outline.ancestors id = [id] := by
  rw [ancestors]
  simp [root]

/-- The scopes around a scope, from the outermost ones inwards. -/
theorem ancestors_induction {motive : Nat → Prop} (outline : Outline)
    (alone : ∀ id, outline.ancestors id = [id] → motive id)
    (inner : ∀ id parent, (outline.scope id).parent = some parent → parent < id →
      outline.ancestors id = id :: outline.ancestors parent → motive parent → motive id) (id : Nat) :
    motive id := by
  induction id using Nat.strongRecOn with
  | ind id ih =>
      cases found : (outline.scope id).parent with
      | none => exact alone id (ancestors_of_root found)
      | some parent =>
          by_cases smaller : parent < id
          · exact inner id parent found smaller (ancestors_of_parent found smaller) (ih parent smaller)
          · refine alone id ?_
            rw [ancestors]
            simp [found, smaller]

theorem ancestors_head (outline : Outline) (id : Nat) : (outline.ancestors id).head? = some id := by
  cases id using outline.ancestors_induction with
  | alone id eq => simp [eq]
  | inner id parent _ _ eq => simp [eq]

theorem mem_ancestors_self (outline : Outline) (id : Nat) : id ∈ outline.ancestors id :=
  List.mem_of_head? (ancestors_head outline id)

theorem le_of_mem_ancestors (around : other ∈ outline.ancestors id) : other ≤ id := by
  induction id using outline.ancestors_induction with
  | alone id eq =>
      rw [eq, List.mem_singleton] at around
      exact Nat.le_of_eq around
  | inner id parent _ smaller eq ih =>
      rcases List.mem_cons.mp (eq ▸ around) with rfl | outer
      · exact Nat.le_refl _
      · exact Nat.le_trans (ih outer) (Nat.le_of_lt smaller)

theorem ancestors_suffix (around : other ∈ outline.ancestors id) :
    outline.ancestors other <:+ outline.ancestors id := by
  induction id using outline.ancestors_induction with
  | alone id eq =>
      rw [eq, List.mem_singleton] at around
      subst around
      exact List.suffix_refl _
  | inner id parent _ _ eq ih =>
      rcases List.mem_cons.mp (eq ▸ around) with rfl | outer
      · exact List.suffix_refl _
      · rw [eq]
        exact (ih outer).trans (List.suffix_cons _ _)

/-- A scope around another one is the parent of a scope around it. -/
theorem exists_child (around : other ∈ outline.ancestors id) (strict : other ≠ id) :
    ∃ child ∈ outline.ancestors id, (outline.scope child).parent = some other ∧ other < child := by
  induction id using outline.ancestors_induction with
  | alone id eq =>
      rw [eq, List.mem_singleton] at around
      exact absurd around strict
  | inner id parent found smaller eq ih =>
      rcases List.mem_cons.mp (eq ▸ around) with rfl | outer
      · exact absurd rfl strict
      · by_cases direct : other = parent
        · subst direct
          exact ⟨id, mem_ancestors_self outline id, found, smaller⟩
        · obtain ⟨child, member, isChild⟩ := ih outer direct
          exact ⟨child, eq ▸ List.mem_cons_of_mem _ member, isChild⟩

theorem ancestors_congr {left right : Outline}
    (same : ∀ other ≤ id, (left.scope other).parent = (right.scope other).parent) :
    left.ancestors id = right.ancestors id := by
  induction id using Nat.strongRecOn with
  | ind id ih =>
      rw [ancestors, ancestors, same id (Nat.le_refl id)]
      cases (right.scope id).parent with
      | none => rfl
      | some parent =>
          by_cases smaller : parent < id
          · simp [smaller, ih parent smaller fun other bound => same other (by omega)]
          · simp [smaller]

end Ancestors

/-- The spans of the scopes follow the tree of scopes, for a text of `size` bytes. -/
structure Laminar (outline : Outline) (size : Nat) : Prop where
  known : 0 < outline.scopes.size
  file : outline.scope 0 =
    ⟨.global, none, NamespacePath.globalPath, Span.between 0 (size + 1)⟩
  notGlobal : ∀ id < outline.scopes.size, 0 < id → (outline.scope id).kind ≠ .global
  nonempty : ∀ id < outline.scopes.size, (outline.scope id).span.start < (outline.scope id).span.stop
  inside : ∀ id < outline.scopes.size, 0 < id → ∃ parent < id,
    (outline.scope id).parent = some parent ∧
      (outline.scope id).span.Within (outline.scope parent).span
  apart : ∀ left right, left < right → right < outline.scopes.size →
    left ∈ outline.ancestors right ∨
      (outline.scope left).span.stop ≤ (outline.scope right).span.start

namespace Laminar

variable {outline : Outline} {size : Nat} (laminar : outline.Laminar size)

include laminar

theorem within {inner outer : Nat} (bound : inner < outline.scopes.size)
    (around : outer ∈ outline.ancestors inner) :
    (outline.scope inner).span.Within (outline.scope outer).span := by
  induction inner using outline.ancestors_induction with
  | alone id eq =>
      rw [eq, List.mem_singleton] at around
      rw [around]
      exact Span.Within.refl _
  | inner id parent found smaller eq ih =>
      rcases List.mem_cons.mp (eq ▸ around) with rfl | further
      · exact Span.Within.refl _
      · obtain ⟨other, -, isParent, within⟩ := laminar.inside id bound (by omega)
        obtain rfl : other = parent := Option.some.inj (isParent.symm.trans found)
        exact within.trans (ih (by omega) further)

/-- A scope with others around it is not the file. -/
theorem parent_of_opened {id parent : Nat} {outer : List Nat} (bound : id < outline.scopes.size)
    (opened : outline.ancestors id = id :: parent :: outer) :
    0 < id ∧ parent < id ∧ (outline.scope id).parent = some parent ∧
      outline.ancestors parent = parent :: outer := by
  have positive : 0 < id := Nat.pos_of_ne_zero fun zero => by
    rw [zero, ancestors_of_root (by rw [laminar.file])] at opened
    simp at opened
  obtain ⟨other, smaller, isParent, -⟩ := laminar.inside id bound positive
  rw [ancestors_of_parent isParent smaller, List.cons.injEq] at opened
  have first := ancestors_head outline other
  rw [opened.2, List.head?_cons, Option.some.injEq] at first
  subst first
  exact ⟨positive, smaller, isParent, opened.2⟩

theorem not_overlaps {left right : Nat} (leftBound : left < outline.scopes.size)
    (rightBound : right < outline.scopes.size) (notAround : left ∉ outline.ancestors right)
    (notInside : right ∉ outline.ancestors left) :
    ¬(outline.scope left).span.Overlaps (outline.scope right).span := by
  rintro ⟨first, second⟩
  rcases Nat.lt_trichotomy left right with less | rfl | more
  · have behind := (laminar.apart left right less rightBound).resolve_left notAround
    omega
  · exact notAround (mem_ancestors_self outline left)
  · have behind := (laminar.apart right left more leftBound).resolve_left notInside
    omega

theorem scopeAt_spec {offset : Nat} (inText : offset ≤ size) :
    outline.scopeAt offset < outline.scopes.size ∧
      (outline.scope (outline.scopeAt offset)).span.Contains offset ∧
      ∀ later < outline.scopes.size, (outline.scope later).span.Contains offset →
        later ≤ outline.scopeAt offset := by
  have file : (outline.scope 0).span.Contains offset := by
    rw [laminar.file]
    exact ⟨Nat.zero_le _, by simp only [Span.between]; omega⟩
  rw [scopeAt]
  cases found : (List.range outline.scopes.size).reverse.find? fun id =>
      (outline.scope id).span.Contains offset with
  | none =>
      have nothing := List.find?_eq_none.mp found 0 (by simpa using laminar.known)
      exact absurd file (by simpa using nothing)
  | some id =>
      obtain ⟨contains, front, back, parts, others⟩ := List.find?_eq_some_iff_append.mp found
      have member : id ∈ List.range outline.scopes.size := by
        rw [← List.mem_reverse, parts]
        simp
      refine ⟨List.mem_range.mp member, by simpa using contains, fun later bound inside => ?_⟩
      rw [Option.getD_some]
      have place : later ∈ front ++ id :: back := by
        rw [← parts]
        simpa using bound
      rcases List.mem_append.mp place with infront | behind
      · exact absurd inside (by simpa using others later infront)
      · -- The list counts down.
        have ordered : (front ++ id :: back).Pairwise (· > ·) := by
          rw [← parts]
          exact List.pairwise_reverse.mpr List.pairwise_lt_range
        rcases List.mem_cons.mp behind with rfl | smaller
        · exact Nat.le_refl _
        · exact Nat.le_of_lt
            ((List.pairwise_cons.mp (List.pairwise_append.mp ordered).2.1).1 later smaller)

/-- The scope at an offset is the one around it that has no scope around it inside. -/
theorem scopeAt_eq_iff {offset id : Nat} (inText : offset ≤ size) (bound : id < outline.scopes.size) :
    outline.scopeAt offset = id ↔ (outline.scope id).span.Contains offset ∧
      ∀ child < outline.scopes.size, (outline.scope child).parent = some id →
        ¬(outline.scope child).span.Contains offset := by
  obtain ⟨found, contains, last⟩ := laminar.scopeAt_spec inText
  constructor
  · rintro rfl
    refine ⟨contains, fun child childBound isChild inside => ?_⟩
    have notFile : 0 < child := Nat.pos_of_ne_zero fun same => by
      rw [same, laminar.file] at isChild
      exact absurd isChild (by simp)
    obtain ⟨parent, smaller, isParent, -⟩ := laminar.inside child childBound notFile
    obtain rfl : parent = _ := Option.some.inj (isParent.symm.trans isChild)
    exact absurd (last child childBound inside) (by omega)
  · rintro ⟨inside, none⟩
    refine (Nat.eq_or_lt_of_le (last id bound inside)).elim Eq.symm fun smaller => ?_
    -- Both contain the offset, so the smaller one is around the other, through a child of its own.
    have around : id ∈ outline.ancestors (outline.scopeAt offset) := by
      refine (laminar.apart id _ smaller found).resolve_right fun behind => ?_
      have first := contains.1
      have second := inside.2
      omega
    obtain ⟨child, member, isChild, -⟩ := exists_child around (Nat.ne_of_lt smaller)
    have childBound := Nat.lt_of_le_of_lt (le_of_mem_ancestors member) found
    exact absurd ((laminar.within found member).contains contains) (none child childBound isChild)

end Laminar

/-! A scope that is opened. -/

section Push

variable {outline next : Outline} {scope : Scope} (pushed : next.scopes = outline.scopes.push scope)

include pushed

theorem scope_push (id : Nat) :
    next.scope id = if id = outline.scopes.size then scope else outline.scope id := by
  simp only [Outline.scope, pushed, Array.getD_eq_getD_getElem?, Array.getElem?_push]
  split <;> rfl

theorem scope_push_new : next.scope outline.scopes.size = scope := by
  rw [scope_push pushed, if_pos rfl]

theorem scope_push_old {id : Nat} (bound : id < outline.scopes.size) :
    next.scope id = outline.scope id := by
  rw [scope_push pushed, if_neg (Nat.ne_of_lt bound)]

theorem ancestors_push_old {id : Nat} (bound : id < outline.scopes.size) :
    next.ancestors id = outline.ancestors id :=
  ancestors_congr fun other less => by
    rw [scope_push_old pushed (Nat.lt_of_le_of_lt less bound)]

variable {around : Nat} (isParent : scope.parent = some around) (bound : around < outline.scopes.size)

include isParent bound

theorem ancestors_push_new :
    next.ancestors outline.scopes.size = outline.scopes.size :: outline.ancestors around := by
  rw [ancestors_of_parent (by rw [scope_push_new pushed, isParent]) bound,
    ancestors_push_old pushed bound]

/-- A scope opens inside another one, behind the scopes that do not lie around that one. -/
theorem Laminar.push {size : Nat} (laminar : outline.Laminar size) (notGlobal : scope.kind ≠ .global)
    (nonempty : scope.span.start < scope.span.stop)
    (within : scope.span.Within (outline.scope around).span)
    (behind : ∀ id < outline.scopes.size, id ∉ outline.ancestors around →
      (outline.scope id).span.stop ≤ scope.span.start) : next.Laminar size := by
  have oldOrNew {id : Nat} (inside : id < next.scopes.size) :
      id < outline.scopes.size ∨ id = outline.scopes.size := by
    rw [pushed, Array.size_push] at inside
    omega
  have old {id : Nat} (isOld : id < outline.scopes.size) := scope_push_old pushed isOld
  have new := scope_push_new pushed
  constructor
  case known =>
    rw [pushed, Array.size_push]
    exact Nat.succ_pos _
  case file => rw [old laminar.known, laminar.file]
  case notGlobal =>
    intro id inside positive
    rcases oldOrNew inside with isOld | rfl
    · rw [old isOld]
      exact laminar.notGlobal id isOld positive
    · rwa [new]
  case nonempty =>
    intro id inside
    rcases oldOrNew inside with isOld | rfl
    · rw [old isOld]
      exact laminar.nonempty id isOld
    · rwa [new]
  case inside =>
    intro id inside positive
    rcases oldOrNew inside with isOld | rfl
    · obtain ⟨parent, smaller, found, inParent⟩ := laminar.inside id isOld positive
      exact ⟨parent, smaller, by rw [old isOld, found], by rwa [old isOld, old (by omega)]⟩
    · exact ⟨around, bound, by rw [new, isParent], by rwa [new, old bound]⟩
  case apart =>
    intro left right less inside
    rcases oldOrNew inside with isOld | rfl
    · rw [ancestors_push_old pushed isOld, old isOld, old (Nat.lt_trans less isOld)]
      exact laminar.apart left right less isOld
    · rw [ancestors_push_new pushed isParent bound, new, old less]
      by_cases isAround : left ∈ outline.ancestors around
      · exact .inl (List.mem_cons_of_mem _ isAround)
      · exact .inr (behind left less isAround)

end Push

/-! A scope that ends. -/

section Close

variable {outline next : Outline} {ended stop : Nat} (bound : ended < outline.scopes.size)
  (closed : next.scopes = outline.scopes.modify ended fun scope =>
    { scope with span := Span.between scope.span.start stop })

include bound closed

theorem scope_close (id : Nat) : next.scope id =
    if id = ended then
      { outline.scope id with span := Span.between (outline.scope id).span.start stop }
    else outline.scope id := by
  simp only [Outline.scope, closed, Array.getD_eq_getD_getElem?, Array.getElem?_modify]
  by_cases same : id = ended
  · subst same
    simp [bound]
  · simp [same, Ne.symm same]

theorem scope_close_other {id : Nat} (different : id ≠ ended) : next.scope id = outline.scope id := by
  rw [scope_close bound closed, if_neg different]

theorem parent_close (id : Nat) : (next.scope id).parent = (outline.scope id).parent := by
  rw [scope_close bound closed]
  split <;> rfl

theorem ancestors_close (id : Nat) : next.ancestors id = outline.ancestors id :=
  ancestors_congr fun other _ => parent_close bound closed other

variable (started : (outline.scope ended).span.start < stop)

include started

theorem span_close : (next.scope ended).span =
    ⟨(outline.scope ended).span.start, stop, Nat.le_of_lt started⟩ := by
  rw [scope_close bound closed, if_pos rfl]
  exact Span.between_of_le _

variable (shorter : stop ≤ (outline.scope ended).span.stop)

include shorter

/-- No scope reaches further than before. -/
theorem within_close (id : Nat) : (next.scope id).span.Within (outline.scope id).span := by
  by_cases same : id = ended
  · subst same
    rw [span_close bound closed started]
    exact ⟨Nat.le_refl _, shorter⟩
  · rw [scope_close_other bound closed same]
    exact Span.Within.refl _

/-- A scope ends behind all scopes inside it. -/
theorem Laminar.close {size : Nat} (laminar : outline.Laminar size) (positive : 0 < ended)
    (inner : ∀ id < outline.scopes.size, (outline.scope id).parent = some ended →
      (outline.scope id).span.stop ≤ stop) : next.Laminar size := by
  have count : next.scopes.size = outline.scopes.size := by rw [closed, Array.size_modify]
  have other {id : Nat} (different : id ≠ ended) := scope_close_other bound closed different
  have endSpan := span_close bound closed started
  have within := within_close bound closed started shorter
  have parentEq := parent_close bound closed
  constructor
  case known => exact count ▸ laminar.known
  case file => rw [other (Nat.ne_of_lt positive), laminar.file]
  case notGlobal =>
    intro id inside notFile
    rw [scope_close bound closed]
    split <;> exact laminar.notGlobal id (count ▸ inside) notFile
  case nonempty =>
    intro id inside
    by_cases same : id = ended
    · subst same
      rwa [endSpan]
    · rw [other same]
      exact laminar.nonempty id (count ▸ inside)
  case inside =>
    intro id inside notFile
    obtain ⟨parent, less, found, inParent⟩ := laminar.inside id (count ▸ inside) notFile
    refine ⟨parent, less, (parentEq id).trans found, ?_⟩
    by_cases same : parent = ended
    · subst same
      rw [other (Nat.ne_of_gt less), endSpan]
      exact ⟨inParent.1, inner id (count ▸ inside) found⟩
    · rw [other same]
      exact (within id).trans inParent
  case apart =>
    intro left right less inside
    have startEq : (next.scope right).span.start = (outline.scope right).span.start := by
      rw [scope_close bound closed]
      split <;> rfl
    rw [ancestors_close bound closed, startEq]
    exact (laminar.apart left right less (count ▸ inside)).imp_right (Nat.le_trans (within left).2)

end Close

end Outline

end Requalify
