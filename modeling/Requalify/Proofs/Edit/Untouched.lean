import Requalify.Proofs.Edit.Completion

/-!
Which names are left alone. A qualifier is sound if it is the path of the declaration, or the visible part of
that path from a name on that the enclosing namespace leads to. Sound qualifiers are left alone, but others
are as well: what stands in front of the part that is sound is not looked at, so an alias can stay.
-/

namespace Requalify

namespace Qualification

variable (policy : Policy) (declared : NamespacePath) (symbol : String) (written : NamespacePath)
  (context : Option NamespacePath)

def visible : List String :=
  declared.segments.take (policy.visibleLength declared symbol)

/-- The written names lead to the declaration from inside the enclosing namespace. -/
def Sound : Prop :=
  written = declared ∨ ∃ first, first ≤ implied declared context ∧
    written.segments = (visible policy declared symbol).drop first

variable {policy declared symbol}

theorem length_visible : (visible policy declared symbol).length =
    policy.visibleLength declared symbol :=
  List.length_take_of_le (policy.visibleLength_le declared symbol)

/-- A name is left alone if its qualifier is the whole path, or ends with the visible part of it from some
implied name on. -/
theorem resolve_eq_unchanged_iff
    (eligible : policy.excludesNamespace declared = false ∧
      policy.excludesSymbol declared symbol = false) :
    resolve declared symbol written context policy = .unchanged ↔ written = declared ∨
      ∃ first, first ≤ implied declared context ∧
        (visible policy declared symbol).drop first <:+ written.segments := by
  have kept := keptLength_kept policy declared symbol written
  have fits := keptLength_le policy declared symbol written
  have size : written.length = written.segments.length := rfl
  have shared : (visible policy declared symbol).drop (policy.visibleLength declared symbol -
      keptLength policy declared symbol written) =
        written.segments.drop (written.length - keptLength policy declared symbol written) := by
    have same := NamespacePath.drop_sharedLength written.segments (visible policy declared symbol)
    rw [length_visible] at same
    exact same.symm
  rw [(resolve_iff_completes policy declared symbol written context).2.2]
  constructor
  · intro nothing
    by_cases same : written = declared
    · exact .inl same
    · refine .inr ⟨policy.visibleLength declared symbol - keptLength policy declared symbol written,
        Nat.le_of_not_lt fun beyond => nothing _ _ (completes_of_eligible eligible same beyond), ?_⟩
      rw [shared]
      exact List.drop_suffix _ _
  · rintro (same | ⟨first, inside, ends⟩) count text completes
    · exact completes.differs same
    · -- The names behind `first` end both lists, so that many are kept.
      have longest := kept.longest _ ends (List.drop_suffix _ _)
      have beyond := completes.text_eq.1
      rw [List.length_drop, List.length_drop, length_visible] at longest
      omega

/-- Sound qualifiers are left alone. What is left alone is sound exactly if it is the whole path or all its
names belong to the end of the visible part: names in front of that part are left alone with it. -/
theorem sound_iff_untouched
    (eligible : policy.excludesNamespace declared = false ∧
      policy.excludesSymbol declared symbol = false) :
    (Sound policy declared symbol written context ↔
      resolve declared symbol written context policy = .unchanged ∧
        (written = declared ∨ written.segments <:+ visible policy declared symbol)) ∧
    (resolve declared symbol written context policy = .unchanged ↔ written = declared ∨
      ∃ front first, first ≤ implied declared context ∧
        written.segments = front ++ (visible policy declared symbol).drop first) := by
  have untouched := resolve_eq_unchanged_iff written context eligible
  refine ⟨⟨?_, ?_⟩, ?_⟩
  · rintro (same | ⟨first, inside, spelled⟩)
    · exact ⟨untouched.mpr (.inl same), .inl same⟩
    · have ends : written.segments <:+ visible policy declared symbol :=
        spelled ▸ List.drop_suffix _ _
      exact ⟨untouched.mpr (.inr ⟨first, inside, spelled ▸ List.suffix_refl _⟩), .inr ends⟩
  · rintro ⟨unchanged, same | ends⟩
    · exact .inl same
    · rcases untouched.mp unchanged with same | ⟨first, inside, behind⟩
      · exact .inl same
      · refine .inr ⟨(visible policy declared symbol).length - written.segments.length, ?_,
          List.suffix_iff_eq_drop.mp ends⟩
        have fewer := behind.length_le
        rw [List.length_drop] at fewer
        omega
  · rw [untouched]
    refine or_congr_right ⟨?_, ?_⟩
    · rintro ⟨first, inside, front, parts⟩
      exact ⟨front, first, inside, parts.symm⟩
    · rintro ⟨front, first, inside, parts⟩
      exact ⟨first, inside, front, parts.symm⟩

/-- Inside the namespace a qualifier is left alone with an alias in front of what is sound. -/
theorem sound_iff_untouched_alias :
    let context : Option NamespacePath := some ⟨["std"]⟩
    (resolve ⟨["std", "chrono"]⟩ "seconds" ⟨["s", "chrono"]⟩ context .standard = .unchanged ∧
      ¬Sound .standard ⟨["std", "chrono"]⟩ "seconds" ⟨["s", "chrono"]⟩ context) ∧
    Sound .standard ⟨["std", "chrono"]⟩ "seconds" ⟨["chrono"]⟩ context := by
  intro context
  have eligible : Policy.standard.excludesNamespace ⟨["std", "chrono"]⟩ = false ∧
      Policy.standard.excludesSymbol ⟨["std", "chrono"]⟩ "seconds" = false := by
    decide
  have aliased := sound_iff_untouched ⟨["s", "chrono"]⟩ context eligible
  have plain := sound_iff_untouched ⟨["chrono"]⟩ context eligible
  refine ⟨⟨by decide, fun sound => ?_⟩, plain.1.mpr ⟨by decide, by decide⟩⟩
  have ends := (aliased.1.mp sound).2
  revert ends
  decide

/-- An alias for the enclosing namespace is left in front of a name that needs no qualifier. -/
theorem alias_untouched : ¬∀ (policy : Policy) (declared : NamespacePath) (symbol : String)
    (written : NamespacePath) (context : Option NamespacePath),
    policy.excludesNamespace declared = false → policy.excludesSymbol declared symbol = false →
    resolve declared symbol written context policy = .unchanged →
    Sound policy declared symbol written context := by
  intro claim
  have sound := claim .standard ⟨["std", "chrono"]⟩ "seconds" ⟨["ch"]⟩ (some ⟨["std", "chrono"]⟩)
    (by decide) (by decide) (by decide)
  rcases sound with same | ⟨first, -, spelled⟩
  · revert same
    decide
  · have inPath : "ch" ∈ visible .standard ⟨["std", "chrono"]⟩ "seconds" := by
      refine List.mem_of_mem_drop (i := first) ?_
      rw [← spelled]
      exact List.mem_cons_self
    revert inPath
    decide

end Qualification

end Requalify
