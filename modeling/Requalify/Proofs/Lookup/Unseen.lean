import Requalify.Proofs.Lookup.Settled

/-!
Two files that differ in their using-statements. Where the same statements are seen, names mean the same, and
the order in which the statements are resolved plays no role in that.
-/

namespace Requalify

section Seen

variable {old new : Outline} (same : old.SameNames new)

include same

theorem Outline.SameNames.parentsFirst (ordered : old.ParentsFirst) : new.ParentsFirst := by
  intro id parent isParent
  rw [same.scope] at isParent
  exact ordered id parent isParent

/-- A statement is resolved through those that it sees, and these are among the statements that are seen. -/
theorem Environment.settle_seesAlike (catalog : Catalog) (rounds : Nat) {scope offset : Nat}
    (seen : new.usings.filter (old.sees scope offset) = old.usings.filter (old.sees scope offset)) :
    (settle old catalog rounds).SeesAlike scope offset (settle new catalog rounds) := by
  induction rounds generalizing scope offset with
  | zero =>
      refine ⟨same, rfl, ?_⟩
      simp only [settle, List.filter_map, Function.comp_def, seen]
  | succ rounds ih =>
      have spaces : ∀ entry ∈ old.usings.filter (old.sees scope offset),
          (settle new catalog rounds).spaceOf entry = (settle old catalog rounds).spaceOf entry := by
        intro entry member
        obtain ⟨around, front⟩ := Outline.sees_iff.mp (List.mem_filter.mp member).2
        have within (other : ScopedUsing)
            (isSeen : old.sees entry.scope entry.statement.start other = true) :=
          Outline.sees_trans around (Nat.le_of_lt front) isSeen
        have inner := congrArg (List.filter (old.sees entry.scope entry.statement.start)) seen
        rw [filter_filter_of_imp within, filter_filter_of_imp within] at inner
        exact spaceOf_seesAlike (ih inner)
      refine ⟨same, rfl, ?_⟩
      simp only [settle, List.filter_map, Function.comp_def, seen]
      exact List.map_congr_left fun entry member => by rw [spaces entry member]

/-- A mention means the same in two files of the same scopes and names in which it sees the same
statements. -/
theorem OnDemand.resolve_of_seen (ordered : old.ParentsFirst) (catalog : Catalog) {mention : Mention}
    (seen : new.usings.filter (old.sees mention.scope mention.chain.start) =
      old.usings.filter (old.sees mention.scope mention.chain.start)) :
    (∃ resolution, EndsWith (resolve old catalog · mention) resolution ∧
      EndsWith (resolve new catalog · mention) resolution) ∧
    (Environment.ofOutline new catalog).resolve mention =
      (Environment.ofOutline old catalog).resolve mention := by
  constructor
  · have alike := Environment.settle_seesAlike same catalog mention.chain.start seen
    refine ⟨_, resolve_ends_settle ordered catalog mention, ?_⟩
    rw [← Environment.resolve_seesAlike alike]
    exact resolve_ends_settle (same.parentsFirst ordered) catalog mention
  · exact Environment.resolve_seesAlike (Environment.ofOutline_seesAlike same catalog seen)

end Seen

set_option maxRecDepth 100000 in
/-- Only the first directive is seen, so what the one in the function and the last one name does not
matter. -/
theorem OnDemand.resolve_of_seen_first :
    let old := Outline.ofText
      "using namespace m;\nvoid f() \x7b using namespace m; \x7d\nint y = x;\nusing namespace m;\n"
    let new := { old with usings := old.usings.map fun entry =>
      if entry.statement.start = 0 then entry else { entry with target := ⟨["n"]⟩ } }
    let catalog := Catalog.empty.add
      (Outline.ofText "namespace m \x7b int x; \x7d\nnamespace n \x7b int x; \x7d\n") false
    let mention : Mention := ⟨⟨none, [], ⟨"x", Span.between 59 60⟩⟩, 0, .plain⟩
    let resolution := Resolution.found ⟨⟨"x", ⟨["m"]⟩, .variable⟩, false,
      .expression none ⟨"x", Span.between 59 60⟩⟩
    old.mentions = [mention] ∧ new.usings.map (·.target) = [⟨["m"]⟩, ⟨["n"]⟩, ⟨["n"]⟩] ∧
      old.ParentsFirst ∧ old.SameNames new ∧
      new.usings.filter (old.sees mention.scope mention.chain.start) =
        old.usings.filter (old.sees mention.scope mention.chain.start) ∧
      EndsWith (resolve new catalog · mention) resolution ∧
      (Environment.ofOutline new catalog).resolve mention = resolution := by
  intro old new catalog mention resolution
  let first : ScopedUsing := ⟨⟨.directive, 0, 16, 17⟩, 0, false, ⟨["m"]⟩, none⟩
  have ordered : old.ParentsFirst := Outline.ofText_parentsFirst _
  have same : old.SameNames new := ⟨rfl, rfl, rfl⟩
  have facts : old.mentions = [mention] ∧ new.usings.map (·.target) = [⟨["m"]⟩, ⟨["n"]⟩, ⟨["n"]⟩] ∧
      new.usings.filter (old.sees mention.scope mention.chain.start) = [first] ∧
      old.usings.filter (old.sees mention.scope mention.chain.start) = [first] ∧
      (old.usings.Pairwise fun earlier later => earlier.statement.start < later.statement.start) ∧
      (Environment.ofOutline old catalog).resolve mention = resolution := by
    decide +kernel
  obtain ⟨mentions, targets, seenNew, seenOld, ascend, found⟩ := facts
  have seen := seenNew.trans seenOld.symm
  obtain ⟨⟨result, onOld, onNew⟩, inOrder⟩ := resolve_of_seen same ordered catalog seen
  obtain rfl : result = resolution :=
    (onOld.unique (resolve_ends_ofOutline ordered catalog mention ascend)).trans found
  exact ⟨mentions, targets, ordered, same, seen, onNew, inOrder.trans found⟩

end Requalify
