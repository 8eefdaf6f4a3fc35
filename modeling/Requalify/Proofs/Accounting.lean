import Mathlib.Algebra.GroupWithZero.Nat
import Mathlib.Logic.Relation
import Requalify.Proofs.Patch.Order

/-!
What a run counts. Units go on side by side, one match at a time. In whatever order they do, each match is
counted once in the report of its unit, and the patches that the reports count are those in the store, each
with one warning, and those in the sets that are taken out of it.
-/

namespace Requalify

namespace Tool

/-- How many matches of a source the tool looks at. -/
def matchCount (tool : Tool) (found : Matches) : Nat :=
  match tool with
  | inlineNamespaces => found.references.length + found.usings.length
  | disambiguateSymbols => found.anonymousNamespaces.length + found.anonymousReferences.length

theorem edits_length (tool : Tool) (policy : Policy) (source : Source) (found : Matches) :
    (tool.edits policy source found).length = tool.matchCount found := by
  cases tool with
  | inlineNamespaces => simp [edits, matchCount]
  | disambiguateSymbols => simp [edits, matchCount]

end Tool

namespace UnitReport

def total (report : UnitReport) : Nat :=
  report.patched + report.duplicates + report.unchanged

theorem total_count (report : UnitReport) (outcome : Option AddOutcome) :
    (report.count outcome).total = report.total + 1 := by
  rcases outcome with - | - | -
  all_goals
    simp only [total, count]
    omega

theorem file_count (report : UnitReport) (outcome : Option AddOutcome) :
    (report.count outcome).file = report.file := by
  rcases outcome with - | - | - <;> rfl

theorem patched_count (report : UnitReport) (outcome : Option AddOutcome) :
    (report.count outcome).patched =
      report.patched + if outcome = some .inserted then 1 else 0 := by
  rcases outcome with - | - | - <;> rfl

end UnitReport

namespace Store

theorem size_insertInto {source : Source} {patch : Patch} {sets : List PatchSet}
    (free : ∀ other ∈ recordedIn sets source.path, other.offset ≠ patch.offset) :
    ((insertInto source patch sets).flatMap (·.patches)).length =
      (sets.flatMap (·.patches)).length + 1 := by
  induction sets with
  | nil => rfl
  | cons first rest ih =>
      rw [insertInto]
      rw [recordedIn_cons] at free
      split
      next here =>
        rw [if_pos here] at free
        have placed := PatchSet.patches_insert_perm fun other member =>
          free other (List.mem_append_left _ member)
        rw [List.flatMap_cons, List.flatMap_cons, List.length_append, List.length_append,
          placed.length_eq, List.length_cons]
        omega
      next =>
        have placed := ih fun other member => free other (List.mem_append_right _ member)
        rw [List.flatMap_cons, List.flatMap_cons, List.length_append, List.length_append, placed]
        omega

end Store

/-- A unit whose matches are being processed, and the edits that those left ask for. -/
structure Task where
  source : Source
  report : UnitReport
  pending : List (Option Edit)

/-- What processing a unit does not change. -/
def Task.account (task : Task) : Source × String × Nat :=
  (task.source, task.report.file, task.report.total + task.pending.length)

namespace Session

/-- One of the units processes its next match. -/
inductive Advances : Session × List Task → Session × List Task → Prop
  | unchanged {session : Session} {front back : List Task} {source : Source} {report : UnitReport}
      {rest : List (Option Edit)} :
      Advances (session, front ++ ⟨source, report, none :: rest⟩ :: back)
        (session, front ++ ⟨source, report.count none, rest⟩ :: back)
  | added {session next : Session} {front back : List Task} {source : Source} {report : UnitReport}
      {edit : Edit} {outcome : AddOutcome} {rest : List (Option Edit)}
      (accepted : session.add source edit = .ok (next, outcome)) :
      Advances (session, front ++ ⟨source, report, some edit :: rest⟩ :: back)
        (next, front ++ ⟨source, report.count (some outcome), rest⟩ :: back)

/-- The tasks are those of analyzed sources, with nothing processed. -/
def Starts (tool : Tool) (policy : Policy) (analyze : Source → Except RunError Matches)
    (sources : List Source) (tasks : List Task) : Prop :=
  List.Forall₂ (fun source task => ∃ found, analyze source = .ok found ∧
    task = ⟨source, ⟨source.relativePath, 0, 0, 0⟩, tool.edits policy source found⟩) sources tasks

/-- The units can advance, in some order, until no match is left; then `session` is what they have recorded
and `reports` what they have counted. -/
def Completes (tool : Tool) (policy : Policy) (analyze : Source → Except RunError Matches)
    (sources : List Source) (session : Session) (reports : List UnitReport) : Prop :=
  ∃ tasks done, Starts tool policy analyze sources tasks ∧
    Relation.ReflTransGen Advances (empty, tasks) (session, done) ∧
    (∀ task ∈ done, task.pending = []) ∧ reports = done.map (·.report)

/-- The store holds `count` patches, in sets that are not empty, and there are as many warnings. -/
structure Holds (session : Session) (count : Nat) : Prop where
  consistent : session.store.Consistent
  nonempty : ∀ set ∈ session.store.sets, set.patches ≠ []
  size : session.store.size = count
  diagnostics : session.diagnostics.size = count

theorem holds_empty : empty.Holds 0 where
  consistent := Store.consistent_empty
  nonempty := by simp [empty, Store.empty]
  size := rfl
  diagnostics := rfl

theorem add_cases {session next : Session} {source : Source} {edit : Edit} {outcome : AddOutcome}
    (consistent : session.store.Consistent) (accepted : session.add source edit = .ok (next, outcome)) :
    (outcome = .duplicate ∧ next = session) ∨
    (outcome = .inserted ∧
      (∀ other ∈ session.store.recorded source.path, other.Compatible edit.patch) ∧
      next = ⟨session.store.insert source edit.patch,
        session.diagnostics.push (Diagnostic.ofPatch source edit.patch edit.trigger)⟩) := by
  have result : session.attempt ⟨source, edit⟩ = (next, .ok outcome) := by
    rw [attempt, accepted]
  rcases attempt_cases consistent ⟨source, edit⟩ with
    ⟨_, _, _, _, same⟩ | ⟨_, _, _, _, _, refused⟩ | ⟨_, _, _, _, _, refused⟩ | ⟨compatible, grown⟩
  · simp only [result, Prod.mk.injEq, Except.ok.injEq] at same
    exact .inl ⟨same.2, same.1⟩
  · simp [result] at refused
  · simp [result] at refused
  · simp only [result, Prod.mk.injEq, Except.ok.injEq] at grown
    exact .inr ⟨grown.2, compatible, grown.1⟩

theorem Holds.add {session next : Session} {count : Nat} (holds : session.Holds count)
    {source : Source} {edit : Edit} {outcome : AddOutcome}
    (accepted : session.add source edit = .ok (next, outcome)) :
    next.Holds (count + if outcome = .inserted then 1 else 0) := by
  rcases add_cases holds.consistent accepted with ⟨rfl, rfl⟩ | ⟨rfl, compatible, rfl⟩
  · exact holds
  · refine ⟨Store.insert_consistent holds.consistent compatible,
      Store.insertInto_nonempty holds.nonempty, ?_, ?_⟩
    · have grown := Store.size_insertInto fun other member => (compatible other member).1
      rw [← holds.size]
      exact grown
    · rw [if_pos rfl, Array.size_push, holds.diagnostics]

def patchedBy (tasks : List Task) : Nat :=
  (tasks.map (·.report.patched)).sum

section Advances

variable {session next : Session} {tasks others : List Task}

theorem Advances.holds (advances : Advances (session, tasks) (next, others))
    (holds : session.Holds (patchedBy tasks)) : next.Holds (patchedBy others) := by
  have sum (front back : List Task) (task : Task) :
      patchedBy (front ++ task :: back) =
        patchedBy front + patchedBy back + task.report.patched := by
    simp only [patchedBy, List.map_append, List.map_cons, List.sum_append, List.sum_cons]
    omega
  cases advances with
  | unchanged =>
      rw [sum] at holds ⊢
      rw [UnitReport.patched_count]
      exact holds
  | added accepted =>
      rw [sum] at holds ⊢
      simpa [UnitReport.patched_count, Nat.add_assoc] using holds.add accepted

theorem Advances.account (advances : Advances (session, tasks) (next, others)) :
    others.map Task.account = tasks.map Task.account := by
  cases advances with
  | unchanged =>
      simp [Task.account, UnitReport.file_count, UnitReport.total_count]
      omega
  | added accepted =>
      simp [Task.account, UnitReport.file_count, UnitReport.total_count]
      omega

/-- Whatever order the units advance in, the reports count what the store holds, and no match is lost. -/
theorem holds_of_advances {start : List Task} (fresh : patchedBy start = 0)
    (steps : Relation.ReflTransGen Advances (empty, start) (session, tasks)) :
    session.Holds (patchedBy tasks) ∧ tasks.map Task.account = start.map Task.account := by
  generalize stateEq : (session, tasks) = state at steps
  induction steps generalizing session tasks with
  | refl =>
      obtain ⟨rfl, rfl⟩ := Prod.mk.inj stateEq
      exact ⟨fresh ▸ holds_empty, rfl⟩
  | @tail middle _ _ step ih =>
      obtain ⟨holds, accounts⟩ := @ih middle.1 middle.2 rfl
      rw [← stateEq] at step
      exact ⟨Advances.holds step holds, (Advances.account step).trans accounts⟩

end Advances

/-! The run that takes the units in their order is one of those. -/

theorem record_advances {session next : Session} {source : Source} {report ended : UnitReport}
    {edits : List (Option Edit)} (recorded : session.record source report edits = (next, .ok ended))
    (front back : List Task) :
    Relation.ReflTransGen Advances (session, front ++ ⟨source, report, edits⟩ :: back)
      (next, front ++ ⟨source, ended, []⟩ :: back) := by
  fun_induction record session source report edits with
  | case1 session report =>
      obtain ⟨rfl, ⟨⟩⟩ := Prod.mk.inj recorded
      exact .refl
  | case2 session report rest ih => exact .head .unchanged (ih recorded)
  | case3 => simp at recorded
  | case4 session report edit rest grown outcome accepted ih =>
      exact .head (.added accepted) (ih recorded)

theorem runFrom_advances {tool : Tool} {policy : Policy} {analyze : Source → Except RunError Matches}
    {session final : Session} {reports : Array UnitReport} {sources : List Source}
    {all : List UnitReport}
    (runs : runFrom tool policy analyze session reports sources = (final, .ok all)) :
    ∃ tasks done, Starts tool policy analyze sources tasks ∧
      (∀ front, Relation.ReflTransGen Advances (session, front ++ tasks) (final, front ++ done)) ∧
      (∀ task ∈ done, task.pending = []) ∧ all = reports.toList ++ done.map (·.report) := by
  induction sources generalizing session reports with
  | nil =>
      obtain ⟨rfl, ⟨⟩⟩ := Prod.mk.inj runs
      exact ⟨[], [], .nil, fun _ => .refl, by simp, by simp⟩
  | cons source rest ih =>
      rw [runFrom, runUnit] at runs
      cases analyzed : analyze source with
      | error error => simp [analyzed] at runs
      | ok found =>
          simp only [analyzed] at runs
          generalize result : session.record source ⟨source.relativePath, 0, 0, 0⟩
            (tool.edits policy source found) = recorded at runs
          obtain ⟨next, conflict | report⟩ := recorded
          · simp [Except.mapError] at runs
          · simp only [Except.mapError] at runs
            obtain ⟨tasks, done, starts, steps, finished, allEq⟩ := ih runs
            refine ⟨_ :: tasks, ⟨source, report, []⟩ :: done, .cons ⟨found, analyzed, rfl⟩ starts,
              fun front => ?_, ?_, by simp [allEq]⟩
            · have here := record_advances result front tasks
              have further := steps (front ++ [⟨source, report, []⟩])
              rw [List.append_assoc, List.append_assoc] at further
              exact here.trans further
            · simpa using finished

theorem completes_of_run {tool : Tool} {policy : Policy} {analyze : Source → Except RunError Matches}
    {session : Session} {reports : List UnitReport} {sources : List Source}
    (runs : run tool policy analyze sources = (session, .ok reports)) :
    Completes tool policy analyze sources session reports := by
  obtain ⟨tasks, done, starts, steps, finished, all⟩ := runFrom_advances runs
  exact ⟨tasks, done, starts, steps [], finished, by simpa using all⟩

/-- What the reports of a run over `sources` say, and what is taken out of the store after it. -/
structure Accounts (tool : Tool) (analyze : Source → Except RunError Matches) (sources : List Source)
    (session : Session) (reports : List UnitReport) : Prop where
  matched : List.Forall₂ (fun source report => ∃ found, analyze source = .ok found ∧
    report.file = source.relativePath ∧
      report.patched + report.duplicates + report.unchanged = tool.matchCount found) sources reports
  recorded : (reports.map (·.patched)).sum = session.store.size
  warned : session.diagnostics.size = session.store.size
  taken : (session.store.take.1.map (·.patches.length)).sum = session.store.size
  distinct : session.store.take.1.Pairwise fun left right => ¬left.path.SameEntry right.path
  nonempty : ∀ set ∈ session.store.take.1, set.patches ≠ []
  sorted : session.store.take.1.Pairwise fun left right => left.relativePath ≤ right.relativePath
  ascending : ∀ set ∈ session.store.take.1,
    set.patches.Pairwise fun left right => left.offset < right.offset
  emptied : session.store.take.2.size = 0

theorem Starts.fresh {tool : Tool} {policy : Policy} {analyze : Source → Except RunError Matches}
    {sources : List Source} {tasks : List Task} (starts : Starts tool policy analyze sources tasks) :
    patchedBy tasks = 0 := by
  induction starts with
  | nil => rfl
  | cons here _ ih =>
      obtain ⟨found, -, rfl⟩ := here
      simpa [patchedBy] using ih

theorem Starts.matched {tool : Tool} {policy : Policy} {analyze : Source → Except RunError Matches}
    {sources : List Source} {tasks done : List Task} (starts : Starts tool policy analyze sources tasks)
    (accounts : done.map Task.account = tasks.map Task.account)
    (finished : ∀ task ∈ done, task.pending = []) :
    List.Forall₂ (fun source report => ∃ found, analyze source = .ok found ∧
      report.file = source.relativePath ∧
        report.patched + report.duplicates + report.unchanged = tool.matchCount found)
      sources (done.map (·.report)) := by
  induction starts generalizing done with
  | nil =>
      obtain rfl : done = [] := by simpa using accounts
      exact .nil
  | @cons source task sources tasks here _ ih =>
      cases done with
      | nil => simp at accounts
      | cons first done =>
          obtain ⟨found, analyzed, rfl⟩ := here
          obtain ⟨same, others⟩ := List.cons.inj accounts
          obtain ⟨nothing, later⟩ := List.forall_mem_cons.mp finished
          simp only [Task.account, Prod.mk.injEq, nothing, List.length_nil,
            Tool.edits_length] at same
          refine .cons ⟨found, analyzed, same.2.1, ?_⟩ (ih others later)
          have total : first.report.patched + first.report.duplicates + first.report.unchanged + 0 =
              0 + tool.matchCount found := same.2.2
          rwa [Nat.add_zero, Nat.zero_add] at total

theorem Holds.taken {session : Session} {count : Nat} (holds : session.Holds count) :
    (session.store.take.1.map (·.patches.length)).sum = count := by
  have perm : session.store.take.1.Perm session.store.sets := Store.toSets_perm holds.nonempty
  rw [(perm.map _).sum_nat, ← holds.size, Store.size, List.length_flatMap]

/-- A run that succeeds, with its units one after the other or side by side in any order, accounts for every
match and for every patch. -/
theorem run_accounts (tool : Tool) (policy : Policy) (analyze : Source → Except RunError Matches)
    (sources : List Source) (session : Session) (reports : List UnitReport) :
    (run tool policy analyze sources = (session, .ok reports) →
      Accounts tool analyze sources session reports) ∧
    (Completes tool policy analyze sources session reports →
      Accounts tool analyze sources session reports) := by
  have accounts (completes : Completes tool policy analyze sources session reports) :
      Accounts tool analyze sources session reports := by
    obtain ⟨tasks, done, starts, steps, finished, rfl⟩ := completes
    obtain ⟨holds, same⟩ := holds_of_advances starts.fresh steps
    have perm : session.store.take.1.Perm session.store.sets := Store.toSets_perm holds.nonempty
    exact {
      matched := starts.matched same finished
      recorded := by
        rw [holds.size, patchedBy, List.map_map]
        rfl
      warned := holds.diagnostics.trans holds.size.symm
      taken := holds.taken.trans holds.size.symm
      distinct := perm.symm.pairwise holds.consistent.distinct
        fun different found => different found.symm
      nonempty := fun set member => holds.nonempty set (perm.subset member)
      sorted := Store.toSets_pairwise session.store
      ascending := fun set member =>
        (holds.consistent.ordered set (perm.subset member)).imp And.left
      emptied := rfl }
  exact ⟨fun runs => accounts (completes_of_run runs), accounts⟩

/-- One source twice: what its first unit has recorded, its second finds there. -/
theorem run_accounts_repeated :
    let source : Source := ⟨⟨"/p/a.cpp"⟩, "a.cpp", "namespace { }\n"⟩
    let analyze : Source → Except RunError Matches := fun _ => .ok ⟨[], [], [Span.between 0 9], []⟩
    let reports : List UnitReport := [⟨"a.cpp", 1, 0, 0⟩, ⟨"a.cpp", 0, 1, 0⟩]
    ∃ session, run .disambiguateSymbols .standard analyze [source, source] = (session, .ok reports) ∧
      Completes .disambiguateSymbols .standard analyze [source, source] session reports ∧
      Accounts .disambiguateSymbols analyze [source, source] session reports := by
  intro source analyze reports
  have result : (run .disambiguateSymbols .standard analyze [source, source]).2 = .ok reports := by
    decide
  have runs : run .disambiguateSymbols .standard analyze [source, source] = (_, .ok reports) :=
    Prod.ext rfl result
  exact ⟨_, runs, completes_of_run runs, (run_accounts _ _ _ _ _ _).1 runs⟩

end Session

end Requalify
