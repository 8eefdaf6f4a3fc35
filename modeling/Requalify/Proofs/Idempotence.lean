import Requalify.Proofs.Meaning

/-!
A second run. An edit leaves in front of a name just the names that a further edit would spell, so a
reference that still means the same in the same place asks for nothing more, and neither does a
using-statement that the first run has left. What a second run records can only be due to names that
mean something else after the first one.
-/

namespace Requalify

theorem NamespacePath.sharedLength_append (names more : List String) :
    sharedLength names (names ++ more) = names.length := by
  induction names with
  | nil => cases more <;> rfl
  | cons name names ih => simp [sharedLength, ih]

/-- The names that an edit leaves are complete. -/
theorem Qualification.resolve_spelled (policy : Policy) (declared : NamespacePath) (symbol : String)
    (context : Option NamespacePath) :
    resolve declared symbol ⟨spelled policy declared symbol context⟩ context policy = .unchanged := by
  unfold resolve
  split
  next => rfl
  next =>
    split
    next => rfl
    next =>
      extract_lets visible kept around stop replaced
      have parts : (declared.segments.take visible).reverse =
          (spelled policy declared symbol context).reverse ++
            ((declared.segments.take visible).take around).reverse := by
        rw [← List.reverse_append]
        exact congrArg List.reverse (List.take_append_drop around _).symm
      have keptEq : kept = (spelled policy declared symbol context).length := by
        rw [← List.length_reverse, ← NamespacePath.sharedLength_append _
          ((declared.segments.take visible).take around).reverse, ← parts]
      have size : (spelled policy declared symbol context).length = visible - around := by
        have within : visible ≤ declared.segments.length := policy.visibleLength_le declared symbol
        rw [spelled, List.length_drop, List.length_take]
        change min visible _ - around = _
        omega
      have short : stop ≤ around := by omega
      rw [if_pos short]

/-- A reference of a rewritten source stands for one of the source: it is the same name in the same place,
behind what the first run has left in front of it. -/
structure Reference.Settles (policy : Policy) (source rewritten : Source) (old new : Reference) :
    Prop where
  name : new.declaration.name = old.declaration.name
  path : new.declaration.path = old.declaration.path
  context : new.context = old.context
  written : (WrittenQualifier.read rewritten.text new.node.qualifierSpan).path.segments =
    if (Edit.ofReference policy source old).isSome then
      Qualification.spelled policy old.declaration.path old.declaration.name old.context
    else (WrittenQualifier.read source.text old.node.qualifierSpan).path.segments

/-- A using-statement of a rewritten source is one that the first run has left. -/
structure UsingStatement.Settles (policy : Policy) (source rewritten : Source)
    (old new : UsingStatement) : Prop where
  left : Edit.ofUsing policy source old = none
  target : (new.extent? rewritten.text).map (fun extent => rewritten.slice extent.target) =
    (old.extent? source.text).map fun extent => source.slice extent.target

/-- Every match of a rewritten source stands for one of the source. -/
structure Matches.Settles (policy : Policy) (source rewritten : Source) (old new : Matches) : Prop where
  references : ∀ reference ∈ new.references, ∃ before ∈ old.references,
    before.Settles policy source rewritten reference
  usings : ∀ statement ∈ new.usings, ∃ before ∈ old.usings,
    before.Settles policy source rewritten statement

namespace Edit

variable {policy : Policy} {source rewritten : Source}

theorem ofReference_settled {old new : Reference} (settles : old.Settles policy source rewritten new) :
    ofReference policy rewritten new = none := by
  obtain ⟨name, path, context, written⟩ := settles
  cases asked : ofReference policy source old with
  | some edit =>
      rw [asked, Option.isSome_some, if_pos rfl] at written
      have same : (WrittenQualifier.read rewritten.text new.node.qualifierSpan).path =
          ⟨Qualification.spelled policy old.declaration.path old.declaration.name old.context⟩ :=
        NamespacePath.ext written
      unfold ofReference
      dsimp only
      split
      next => rfl
      next => rw [same, name, path, context, Qualification.resolve_spelled]
  | none =>
      rw [asked, Option.isSome_none, if_neg (by decide)] at written
      have same := NamespacePath.ext written
      unfold ofReference at asked ⊢
      dsimp only at asked ⊢
      rw [same, name, path, context]
      split at asked
      next isGlobal => rw [if_pos isGlobal]
      next isInner =>
        rw [if_neg isInner]
        split at asked
        next => rfl
        next => simp at asked
        next => simp at asked

theorem ofUsing_settled {old new : UsingStatement}
    (settles : old.Settles policy source rewritten new) : ofUsing policy rewritten new = none := by
  obtain ⟨left, target⟩ := settles
  unfold ofUsing at left ⊢
  cases found : new.extent? rewritten.text with
  | none => rfl
  | some extent =>
      cases before : old.extent? source.text with
      | none => simp [found, before] at target
      | some extent' =>
          rw [found, before, Option.map_some, Option.map_some, Option.some.injEq] at target
          simp only [before] at left
          simp only [target]
          split at left
          next excluded => rw [if_pos excluded]
          next => simp at left

theorem settled {old new : Matches} (settles : old.Settles policy source rewritten new) :
    ∀ edit ∈ Tool.inlineNamespaces.edits policy rewritten new, edit = none := by
  intro edit member
  rcases List.mem_append.mp member with inReferences | inUsings
  · obtain ⟨reference, known, rfl⟩ := List.mem_map.mp inReferences
    obtain ⟨before, -, settles⟩ := settles.references reference known
    exact ofReference_settled settles
  · obtain ⟨statement, known, rfl⟩ := List.mem_map.mp inUsings
    obtain ⟨before, -, settles⟩ := settles.usings statement known
    exact ofUsing_settled settles

end Edit

namespace Session

theorem record_nothing (session : Session) (source : Source) (report : UnitReport)
    {edits : List (Option Edit)} (nothing : ∀ edit ∈ edits, edit = none) :
    session.record source report edits =
      (session, .ok { report with unchanged := report.unchanged + edits.length }) := by
  induction edits generalizing report with
  | nil => rfl
  | cons edit edits ih =>
      obtain ⟨rfl, others⟩ := List.forall_mem_cons.mp nothing
      rw [record, ih (report.count none) others, List.length_cons]
      simp [UnitReport.count, Nat.add_assoc, Nat.add_comm 1]

/-- A source in which nothing is to be done. -/
def unchangedReport (source : Source) (edits : List (Option Edit)) : UnitReport :=
  ⟨source.relativePath, 0, 0, edits.length⟩

theorem runFrom_nothing {tool : Tool} {policy : Policy} {found : Source → Matches}
    (session : Session) (reports : Array UnitReport) {sources : List Source}
    (nothing : ∀ source ∈ sources, ∀ edit ∈ tool.edits policy source (found source), edit = none) :
    runFrom tool policy (fun source => .ok (found source)) session reports sources =
      (session, .ok (reports.toList ++ sources.map fun source =>
        unchangedReport source (tool.edits policy source (found source)))) := by
  induction sources generalizing reports with
  | nil => simp [runFrom]
  | cons source sources ih =>
      obtain ⟨here, others⟩ := List.forall_mem_cons.mp nothing
      have unit : runUnit tool policy (fun source => .ok (found source)) session source =
          (session, .ok (unchangedReport source (tool.edits policy source (found source)))) := by
        simp [runUnit, record_nothing _ _ _ here, Except.mapError, unchangedReport]
      rw [runFrom, unit]
      simp only [ih _ others, Array.toList_push, List.map_cons, List.append_assoc, List.singleton_append]

/-- A second run over the rewritten sources records no patch. -/
def RunsOnce (policy : Policy) (headers headerExtensions : List String) (sources : List Source) :
    Prop :=
  ∃ rewritten ∈ rewritten? .inlineNamespaces policy headers headerExtensions sources,
    let again := (Codebase.ofSources headers headerExtensions rewritten).analyze
    (run .inlineNamespaces policy (fun source => .ok (again source)) rewritten).1.store.toSets = []

instance (policy : Policy) (headers headerExtensions : List String) (sources : List Source) :
    Decidable (RunsOnce policy headers headerExtensions sources) :=
  inferInstanceAs (Decidable (∃ rewritten ∈ rewritten? .inlineNamespaces _ _ _ _, _))

end Session

end Requalify
