import Requalify.Edit

/-!
What an edit of a reference spells. The names that it writes and the written names that stay make up the
visible path of the declaration, without the names in front that the enclosing namespace implies.
-/


namespace Requalify

namespace NamespacePath

theorem take_sharedLength (left right : List String) :
    left.take (sharedLength left right) = right.take (sharedLength left right) := by
  fun_induction sharedLength left right with
  | case1 lefts name rights ih => simpa using ih
  | case2 => simp
  | case3 => simp

theorem drop_sharedLength (left right : List String) :
    let kept := sharedLength left.reverse right.reverse
    left.drop (left.length - kept) = right.drop (right.length - kept) := by
  intro kept
  have shared := take_sharedLength left.reverse right.reverse
  rw [List.take_reverse, List.take_reverse] at shared
  exact List.reverse_inj.mp shared

/-- Qualifier text is its names, each with a separator behind it. -/
theorem qualifier_eq_join {path : NamespacePath} {first last : Nat}
    (nonempty : (path.segments.take last).drop first ≠ []) :
    path.qualifier first last =
      String.join (((path.segments.take last).drop first).map (· ++ separator)) := by
  rw [qualifier, join]
  generalize (path.segments.take last).drop first = names at nonempty ⊢
  rw [← String.toList_inj, String.toList_append, String.toList_intercalate, String.toList_join,
    List.flatMap_map]
  induction names with
  | nil => exact absurd rfl nonempty
  | cons name names ih =>
      cases names with
      | nil => simp
      | cons next names =>
          rw [List.flatMap_cons, ← ih (by simp)]
          simp

end NamespacePath

theorem Policy.hiddenBelow?_lt {policy : Policy} {segments : List String} {symbol : String}
    {count index : Nat} (found : policy.hiddenBelow? segments symbol count = some index) :
    index < count := by
  induction count with
  | zero => simp [hiddenBelow?] at found
  | succ count ih =>
      rw [hiddenBelow?] at found
      split at found
      next =>
        obtain rfl := Option.some.inj found
        exact Nat.lt_succ_self _
      next => exact Nat.lt_succ_of_lt (ih found)

theorem Policy.visibleLength_le (policy : Policy) (path : NamespacePath) (symbol : String) :
    policy.visibleLength path symbol ≤ path.length := by
  unfold visibleLength
  cases hidden : policy.hiddenBelow? path.segments symbol path.length with
  | none => exact Nat.le_refl _
  | some index => exact Nat.le_of_lt (hiddenBelow?_lt hidden)

namespace Qualification

/-- How many names at the front of a path the enclosing namespace implies. -/
def implied (declared : NamespacePath) (context : Option NamespacePath) : Nat :=
  (context.map (·.commonLength declared)).getD 0

/-- The names in front of the symbol after its edit. -/
def spelled (policy : Policy) (declared : NamespacePath) (symbol : String)
    (context : Option NamespacePath) : List String :=
  (declared.segments.take (policy.visibleLength declared symbol)).drop (implied declared context)

theorem take_drop_append_drop (names : List String) {first stop : Nat} (ordered : first ≤ stop)
    (bounded : stop ≤ names.length) :
    (names.take stop).drop first ++ names.drop stop = names.drop first := by
  have size : first ≤ (names.take stop).length := by
    rw [List.length_take]
    omega
  rw [← List.drop_append_of_le_length size, List.take_append_drop]

/-- An edit writes names of the declared path from the first that is not implied, and these and the
written names that stay are the spelled ones. -/
theorem resolve_cases (declared : NamespacePath) (symbol : String) (written : NamespacePath)
    (context : Option NamespacePath) (policy : Policy) :
    resolve declared symbol written context policy = .unchanged ∨
    ∃ stop replaced,
      implied declared context < stop ∧ stop ≤ policy.visibleLength declared symbol ∧
      ((declared.take stop).segments.drop (implied declared context)) ++
        written.segments.drop replaced = spelled policy declared symbol context ∧
      resolve declared symbol written context policy =
        if replaced = 0 then .insert (declared.qualifier (implied declared context) stop)
        else .replace replaced (declared.qualifier (implied declared context) stop) := by
  unfold resolve
  split
  next => exact .inl rfl
  next =>
    split
    next => exact .inl rfl
    next =>
      extract_lets visible kept around stop replaced
      split
      next => exact .inl rfl
      next short =>
        have beyond : implied declared context < stop := Nat.lt_of_not_le short
        have within : visible ≤ declared.segments.length := policy.visibleLength_le declared symbol
        have size : (declared.segments.take visible).length = visible := by
          rw [List.length_take]
          omega
        have stays : written.segments.drop replaced =
            (declared.segments.take visible).drop stop := by
          have shared := NamespacePath.drop_sharedLength written.segments
            (declared.segments.take visible)
          rw [size] at shared
          exact shared
        refine .inr ⟨stop, replaced, beyond, Nat.sub_le _ _, ?_, rfl⟩
        have front : (declared.take stop).segments = (declared.segments.take visible).take stop := by
          rw [List.take_take, Nat.min_eq_left (Nat.sub_le _ _)]
          rfl
        rw [stays, front]
        exact take_drop_append_drop _ (by omega) (by omega)

theorem mem_tail_of_spelled {policy : Policy} {declared : NamespacePath} {symbol : String}
    {context : Option NamespacePath} {first : String} {rest : List String}
    (spelling : spelled policy declared symbol context = first :: rest)
    (shared : implied declared context ≠ 0) : first ∈ declared.segments.tail := by
  have inPath : first ∈ declared.segments.drop (implied declared context) := by
    have front : first ∈ spelled policy declared symbol context := spelling ▸ List.mem_cons_self
    rw [spelled, List.drop_take] at front
    exact List.mem_of_mem_take front
  obtain ⟨count, next⟩ := Nat.exists_eq_succ_of_ne_zero shared
  rw [next, ← List.drop_tail] at inPath
  exact List.mem_of_mem_drop inPath

theorem spelled_ne_nil {policy : Policy} {declared : NamespacePath} {symbol : String}
    {context : Option NamespacePath}
    (beyond : implied declared context < policy.visibleLength declared symbol) :
    spelled policy declared symbol context ≠ [] := by
  intro nothing
  have within : policy.visibleLength declared symbol ≤ declared.segments.length :=
    policy.visibleLength_le declared symbol
  have size := congrArg List.length nothing
  rw [spelled, List.length_drop, List.length_take, List.length_nil] at size
  omega

theorem spelled_eq_self {policy : Policy} {declared : NamespacePath} {symbol : String}
    {context : Option NamespacePath}
    (shown : policy.visibleLength declared symbol = declared.length)
    (nothing : implied declared context = 0) :
    spelled policy declared symbol context = declared.segments := by
  rw [spelled, shown, nothing, List.drop_zero]
  exact List.take_length

end Qualification

/-- The patch of a reference, and the names that it leaves in front of the symbol. -/
theorem Edit.ofReference_patch {policy : Policy} {source : Source} {reference : Reference}
    {edit : Edit} (asked : ofReference policy source reference = some edit) :
    let declared := reference.declaration.path
    let implied := Qualification.implied declared reference.context
    let written := WrittenQualifier.read source.text reference.node.qualifierSpan
    ∃ stop replaced,
      implied < stop ∧ stop ≤ policy.visibleLength declared reference.declaration.name ∧
      (declared.take stop).segments.drop implied ++ written.path.segments.drop replaced =
        Qualification.spelled policy declared reference.declaration.name reference.context ∧
      edit.patch = if replaced = 0 then
          Patch.insert written.insertionPoint (declared.qualifier implied stop) qualifyLabel
        else Patch.replace (written.leadingSpan replaced) (declared.qualifier implied stop)
          qualifyLabel := by
  dsimp only [ofReference] at asked ⊢
  split at asked
  next => simp at asked
  next =>
    rcases Qualification.resolve_cases reference.declaration.path reference.declaration.name
      (WrittenQualifier.read source.text reference.node.qualifierSpan).path reference.context policy
      with same | ⟨stop, replaced, beyond, visible, spelling, result⟩
    · rw [same] at asked
      simp at asked
    · refine ⟨stop, replaced, beyond, visible, spelling, ?_⟩
      rw [result] at asked
      by_cases inFront : replaced = 0
      · rw [if_pos inFront] at asked ⊢
        obtain rfl := Option.some.inj asked
        rfl
      · rw [if_neg inFront] at asked ⊢
        obtain rfl := Option.some.inj asked
        rfl

end Requalify
