import Requalify.Proofs.Edit.Spelling

/-!
The edit that a name asks for, told without the way it is found: a text and the number of written names that
the text takes the place of. The names of the text and the written names that stay spell the visible path of
the declaration from the first name that is not implied, and no more written names could stay. At most one
text and number are like that, and if there are none the name is left alone.
-/

namespace Requalify

/-- `part` ends both lists, and nothing longer does. -/
structure LongestCommonSuffix (part left right : List String) : Prop where
  endsLeft : part <:+ left
  endsRight : part <:+ right
  longest : ∀ other, other <:+ left → other <:+ right → other.length ≤ part.length

theorem LongestCommonSuffix.length_unique {part other left right : List String}
    (first : LongestCommonSuffix part left right) (second : LongestCommonSuffix other left right) :
    part.length = other.length :=
  Nat.le_antisymm (second.longest part first.endsLeft first.endsRight)
    (first.longest other second.endsLeft second.endsRight)

namespace NamespacePath

theorem sharedLength_le (left right : List String) : sharedLength left right ≤ left.length := by
  fun_induction sharedLength left right with
  | case1 lefts name rights ih => simpa using ih
  | case2 => simp
  | case3 => simp

theorem length_le_sharedLength {part left right : List String} (inLeft : part <+: left)
    (inRight : part <+: right) : part.length ≤ sharedLength left right := by
  induction part generalizing left right with
  | nil => simp
  | cons name part ih =>
      obtain ⟨lefts, rfl⟩ := inLeft
      obtain ⟨rights, rfl⟩ := inRight
      rw [List.cons_append, List.cons_append, sharedLength, if_pos rfl]
      exact Nat.succ_le_succ (ih (List.prefix_append part lefts) (List.prefix_append part rights))

/-- The names that two lists share from behind, as they stand in the first one. -/
theorem drop_longestCommonSuffix (left right : List String) :
    LongestCommonSuffix (left.drop (left.length - sharedLength left.reverse right.reverse))
      left right where
  endsLeft := List.drop_suffix _ left
  endsRight := by
    rw [drop_sharedLength left right]
    exact List.drop_suffix _ right
  longest other inLeft inRight := by
    have fits := sharedLength_le left.reverse right.reverse
    have longest := length_le_sharedLength (List.reverse_prefix.mpr inLeft)
      (List.reverse_prefix.mpr inRight)
    rw [List.length_reverse] at fits longest
    rw [List.length_drop]
    omega

end NamespacePath

namespace Qualification

variable (policy : Policy) (declared : NamespacePath) (symbol : String) (written : NamespacePath)
  (context : Option NamespacePath)

/-- The text, in place of the first `count` written names, completes the name of an eligible declaration. -/
structure Completes (count : Nat) (text : String) : Prop where
  eligible : policy.excludesNamespace declared = false ∧ policy.excludesSymbol declared symbol = false
  differs : written ≠ declared
  beyond : implied declared context < policy.visibleLength declared symbol
  within : count ≤ written.length
  kept : LongestCommonSuffix (written.segments.drop count) written.segments
    (declared.segments.take (policy.visibleLength declared symbol))
  spells : ∃ names, names ≠ [] ∧
    text = String.join (names.map (· ++ NamespacePath.separator)) ∧
    names ++ written.segments.drop count = spelled policy declared symbol context

/-- How many written names stay. -/
def keptLength : Nat :=
  NamespacePath.sharedLength written.segments.reverse
    (declared.segments.take (policy.visibleLength declared symbol)).reverse

theorem keptLength_le : keptLength policy declared symbol written ≤ written.length := by
  have fits := NamespacePath.sharedLength_le written.segments.reverse
    (declared.segments.take (policy.visibleLength declared symbol)).reverse
  rwa [List.length_reverse] at fits

theorem keptLength_kept : LongestCommonSuffix
    (written.segments.drop (written.length - keptLength policy declared symbol written))
    written.segments (declared.segments.take (policy.visibleLength declared symbol)) :=
  NamespacePath.drop_longestCommonSuffix _ _

theorem length_spelled : (spelled policy declared symbol context).length =
    policy.visibleLength declared symbol - implied declared context := by
  have visible : policy.visibleLength declared symbol ≤ declared.segments.length :=
    policy.visibleLength_le declared symbol
  rw [spelled, List.length_drop, List.length_take]
  omega

variable {policy declared symbol written context}

theorem Completes.count_eq {count : Nat} {text : String}
    (completes : Completes policy declared symbol written context count text) :
    count = written.length - keptLength policy declared symbol written := by
  have lengths := completes.kept.length_unique (keptLength_kept policy declared symbol written)
  have within : count ≤ written.segments.length := completes.within
  rw [List.length_drop, List.length_drop] at lengths
  have size : written.length = written.segments.length := rfl
  have fits := keptLength_le policy declared symbol written
  omega

/-- A completing text has the names between those that are implied and those that stay. -/
theorem Completes.text_eq {count : Nat} {text : String}
    (completes : Completes policy declared symbol written context count text) :
    let stop := policy.visibleLength declared symbol - keptLength policy declared symbol written
    implied declared context < stop ∧ text = declared.qualifier (implied declared context) stop := by
  intro stop
  have countEq := completes.count_eq
  have fits := keptLength_le policy declared symbol written
  obtain ⟨names, nonempty, textEq, spelling⟩ := completes.spells
  have positive : 0 < names.length := List.length_pos_iff.mpr nonempty
  have size : written.length = written.segments.length := rfl
  have lengths := congrArg List.length spelling
  rw [List.length_append, List.length_drop, length_spelled] at lengths
  have namesEq : names = (declared.segments.take stop).drop (implied declared context) := by
    have front := congrArg (List.take names.length) spelling
    rw [List.take_left, spelled, List.take_drop, List.take_take] at front
    rw [front]
    congr 2
    omega
  have beyond : implied declared context < stop := by omega
  refine ⟨beyond, ?_⟩
  rw [textEq, NamespacePath.qualifier_eq_join (namesEq ▸ nonempty), ← namesEq]

theorem completes_of_eligible
    (eligible : policy.excludesNamespace declared = false ∧
      policy.excludesSymbol declared symbol = false)
    (differs : written ≠ declared)
    (beyond : implied declared context <
      policy.visibleLength declared symbol - keptLength policy declared symbol written) :
    Completes policy declared symbol written context
      (written.length - keptLength policy declared symbol written)
      (declared.qualifier (implied declared context)
        (policy.visibleLength declared symbol - keptLength policy declared symbol written)) := by
  have visible : policy.visibleLength declared symbol ≤ declared.segments.length :=
    policy.visibleLength_le declared symbol
  have nonempty : (declared.segments.take (policy.visibleLength declared symbol -
      keptLength policy declared symbol written)).drop (implied declared context) ≠ [] := by
    rw [Ne, List.drop_eq_nil_iff, List.length_take]
    omega
  refine ⟨eligible, differs, by omega, Nat.sub_le _ _, keptLength_kept policy declared symbol written,
    _, nonempty, NamespacePath.qualifier_eq_join nonempty, ?_⟩
  have stays := NamespacePath.drop_sharedLength written.segments
    (declared.segments.take (policy.visibleLength declared symbol))
  have size : (declared.segments.take (policy.visibleLength declared symbol)).length =
      policy.visibleLength declared symbol := List.length_take_of_le visible
  rw [size] at stays
  have front : declared.segments.take (policy.visibleLength declared symbol -
      keptLength policy declared symbol written) =
        (declared.segments.take (policy.visibleLength declared symbol)).take
          (policy.visibleLength declared symbol - keptLength policy declared symbol written) := by
    rw [List.take_take, Nat.min_eq_left (Nat.sub_le _ _)]
  rw [front, spelled, keptLength, NamespacePath.length, stays]
  exact take_drop_append_drop _ (Nat.le_of_lt beyond) (by rw [size]; exact Nat.sub_le _ _)

theorem resolve_of_completes {count : Nat} {text : String}
    (completes : Completes policy declared symbol written context count text) :
    resolve declared symbol written context policy =
      if count = 0 then .insert text else .replace count text := by
  obtain ⟨beyond, textEq⟩ := completes.text_eq
  obtain ⟨namespaceEligible, symbolEligible⟩ := completes.eligible
  have eligible : ¬(policy.excludesNamespace declared || policy.excludesSymbol declared symbol) = true := by
    simp [namespaceEligible, symbolEligible]
  rw [resolve, if_neg eligible, if_neg completes.differs, completes.count_eq, textEq]
  exact if_neg (Nat.not_le_of_lt beyond)

theorem resolve_of_not_completes
    (nothing : ∀ count text, ¬Completes policy declared symbol written context count text) :
    resolve declared symbol written context policy = .unchanged := by
  rw [resolve]
  split
  next => rfl
  next eligible =>
    split
    next => rfl
    next differs =>
      rw [Bool.not_eq_true, Bool.or_eq_false_iff] at eligible
      have short : ¬implied declared context <
          policy.visibleLength declared symbol - keptLength policy declared symbol written :=
        fun beyond => nothing _ _ (completes_of_eligible eligible differs beyond)
      exact if_pos (Nat.le_of_not_lt short)

variable (policy declared symbol written context)

/-- A name is edited exactly if some text completes it: the text goes in front of the name, or in place of
the written names that do not stay. -/
theorem resolve_iff_completes :
    (∀ text, resolve declared symbol written context policy = .insert text ↔
      Completes policy declared symbol written context 0 text) ∧
    (∀ count text, resolve declared symbol written context policy = .replace count text ↔
      count ≠ 0 ∧ Completes policy declared symbol written context count text) ∧
    (resolve declared symbol written context policy = .unchanged ↔
      ∀ count text, ¬Completes policy declared symbol written context count text) := by
  by_cases some : ∃ count text, Completes policy declared symbol written context count text
  · obtain ⟨count, text, completes⟩ := some
    have result := resolve_of_completes completes
    have unique {other : Nat} {others : String}
        (also : Completes policy declared symbol written context other others) :
        other = count ∧ others = text :=
      ⟨also.count_eq.trans completes.count_eq.symm,
        also.text_eq.2.trans completes.text_eq.2.symm⟩
    refine ⟨fun others => ⟨fun inserts => ?_, fun also => ?_⟩,
      fun other others => ⟨fun replaces => ?_, fun ⟨positive, also⟩ => ?_⟩, fun unchanged => ?_,
      fun nothing => absurd completes (nothing count text)⟩
    · rw [result] at inserts
      split at inserts
      next inFront =>
        obtain rfl := insert.inj inserts
        exact inFront ▸ completes
      next => simp at inserts
    · obtain ⟨rfl, rfl⟩ := unique also
      exact result
    · rw [result] at replaces
      split at replaces
      next => simp at replaces
      next positive =>
        obtain ⟨rfl, rfl⟩ := replace.inj replaces
        exact ⟨positive, completes⟩
    · obtain ⟨rfl, rfl⟩ := unique also
      rw [result, if_neg positive]
    · rw [result] at unchanged
      split at unchanged <;> simp at unchanged
  · have nothing : ∀ count text, ¬Completes policy declared symbol written context count text :=
      fun count text completes => some ⟨count, text, completes⟩
    rw [resolve_of_not_completes nothing]
    simp [nothing]

end Qualification

end Requalify
