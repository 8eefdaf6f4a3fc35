import Requalify.Proofs.Disambiguation
import Requalify.Proofs.Edit.Removal
import Requalify.Proofs.Lookup.Kept

/-!
Using-statements that a run leaves. Whether a statement is removed depends on its written names alone, so
a statement can be left that is written relative to one that is removed, and then it names nothing any
more. Any other statement that is left names what it has named before.
-/

namespace Requalify

/-- The using-statements of a text begin in the order of the outline. -/
theorem Outline.usings_ascend (text : String) :
    (ofText text).usings.Pairwise fun earlier later =>
      earlier.statement.start < later.statement.start := by
  obtain ⟨log, trail⟩ := ofText_trail text
  obtain ⟨prints, fewer, same⟩ := List.sublist_map_iff.mp trail.statements
  have ordered : (prints.map (·.landmark)).Pairwise fun earlier later => ∀ old new,
      earlier = .statement old → later = .statement new →
        old.statement.start < new.statement.start := by
    refine List.pairwise_map.mpr ((trail.ordered.sublist fewer).imp_of_mem ?_)
    intro earlier later inEarlier inLater follows old new isOld isNew
    have within := trail.within earlier (fewer.subset inEarlier)
    have valid := trail.valid later (fewer.subset inLater)
    obtain ⟨-, start, -⟩ := isOld ▸ (trail.valid earlier (fewer.subset inEarlier)).describes
    obtain ⟨-, start', -⟩ := isNew ▸ valid.describes
    rw [start, start']
    calc earlier.first.start ≤ earlier.last.start := Footprint.first_start_le within
      _ < earlier.limit := Footprint.last_start_lt within
      _ ≤ later.first.start := Footprint.limit_le_of_follows within valid follows
  rw [← same] at ordered
  exact (List.pairwise_map.mp ordered).imp fun ascends => ascends _ _ rfl rfl

namespace Environment

end Environment

namespace Session

/-- Every directive and every alias that is left names in the rewritten source what it has named in the
source. -/
def KeepsUsings (policy : Policy) (headers headerExtensions : List String) (sources : List Source) :
    Prop :=
  ∃ rewritten ∈ rewritten? .inlineNamespaces policy headers headerExtensions sources,
    let before := Codebase.ofSources headers headerExtensions sources
    let after := Codebase.ofSources headers headerExtensions rewritten
    List.Forall₂ (fun source new => ∀ item ∈ (before.environment source).usings,
      item.entry.statement.kind ≠ .declaration →
      Edit.ofUsing policy source item.entry.statement = none → item.space.isSome = true →
      ∃ other ∈ (after.environment new).usings,
        item.entry.Moved other.entry ∧ other.space = item.space) sources rewritten

instance (policy : Policy) (headers headerExtensions : List String) (sources : List Source) :
    Decidable (KeepsUsings policy headers headerExtensions sources) :=
  inferInstanceAs (Decidable (∃ rewritten ∈ rewritten? .inlineNamespaces _ _ _ _, _))

end Session

end Requalify
