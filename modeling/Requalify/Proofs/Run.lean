import Requalify.Proofs.Edit.Matches
import Requalify.Proofs.Patch.Order

/-!
A run over sources with different paths succeeds, and what it records can be applied. Recording the
edits of the sources is adding their patches to the store, and patches of one source agree with each
other, so the store accepts them in every order in which they may arrive.
-/

namespace Requalify

/-- The matches of a source against a catalog. -/
def Matches.ofSource (catalog : Catalog) (source : Source) : Matches :=
  Matches.ofEnvironment (Environment.ofOutline (Outline.ofText source.text) catalog)

/-- The patches that a tool adds to the store for one source, in order. -/
def Tool.requests (tool : Tool) (policy : Policy) (found : Source → Matches) (source : Source) :
    List (Source × Patch) :=
  ((tool.edits policy source (found source)).filterMap id).map fun edit => (source, edit.patch)

namespace Codebase

/-- Among sources with different paths each has the outline of its own text. -/
theorem environment_eq {headers headerExtensions : List String} {sources : List Source}
    (distinct : sources.Pairwise fun left right => ¬left.path.SameEntry right.path) {source : Source}
    (member : source ∈ sources) :
    (ofSources headers headerExtensions sources).environment source =
      Environment.ofOutline (Outline.ofText source.text)
        (ofSources headers headerExtensions sources).catalog := by
  have kept (codebase : Codebase) (others : List Source)
      (absent : ∀ other ∈ others, ¬source.path.SameEntry other.path) :
      (others.foldl (addSource headerExtensions) codebase).outlines.lookup source.path.components =
        codebase.outlines.lookup source.path.components := by
    induction others generalizing codebase with
    | nil => rfl
    | cons other others ih =>
        obtain ⟨different, absent⟩ := List.forall_mem_cons.mp absent
        rw [List.foldl_cons, ih _ absent, addSource, List.lookup_cons]
        have apart : (source.path.components == other.path.components) = false :=
          beq_eq_false_iff_ne.mpr different
        simp [apart]
  obtain ⟨front, back, rfl⟩ := List.append_of_mem member
  have absent : ∀ other ∈ back, ¬source.path.SameEntry other.path := fun other inBack =>
    List.rel_of_pairwise_cons (List.pairwise_append.mp distinct).2.1 inBack
  have found : (ofSources headers headerExtensions (front ++ source :: back)).outlines.lookup
      source.path.components = some (Outline.ofText source.text) := by
    rw [ofSources, List.foldl_append, List.foldl_cons, kept _ _ absent]
    simp [addSource]
  rw [environment, outline, found, Option.getD_some]

/-- The source as it is analyzed by itself. -/
theorem analyze_eq {headers headerExtensions : List String} {sources : List Source}
    (distinct : sources.Pairwise fun left right => ¬left.path.SameEntry right.path) {source : Source}
    (member : source ∈ sources) :
    (ofSources headers headerExtensions sources).analyze source =
      Matches.ofSource (ofSources headers headerExtensions sources).catalog source := by
  rw [analyze, environment_eq distinct member, Matches.ofSource]

end Codebase

namespace Store

theorem addAll_append {store final : Store} {front back : List (Source × Patch)}
    (accepted : store.addAll (front ++ back) = .ok final) :
    ∃ middle, store.addAll front = .ok middle ∧ middle.addAll back = .ok final := by
  induction front generalizing store with
  | nil => exact ⟨store, rfl, accepted⟩
  | cons request rest ih =>
      obtain ⟨source, patch⟩ := request
      rw [List.cons_append, addAll] at accepted
      split at accepted
      next => simp at accepted
      next next outcome added =>
        obtain ⟨middle, first, second⟩ := ih accepted
        exact ⟨middle, by rw [addAll, added]; exact first, second⟩

end Store

namespace Session

theorem add_of_store {session : Session} {source : Source} {edit : Edit} {next : Store}
    {outcome : AddOutcome} (added : session.store.add source edit.patch = .ok (next, outcome)) :
    ∃ grown, session.add source edit = .ok (grown, outcome) ∧ grown.store = next := by
  cases outcome with
  | inserted => exact ⟨_, by rw [add, added], rfl⟩
  | duplicate => exact ⟨_, by rw [add, added], rfl⟩

theorem record_of_addAll {session : Session} {source : Source} {edits : List (Option Edit)}
    {final : Store} (report : UnitReport)
    (accepted : session.store.addAll ((edits.filterMap id).map fun edit => (source, edit.patch)) =
      .ok final) :
    ∃ next report', session.record source report edits = (next, .ok report') ∧
      next.store = final := by
  induction edits generalizing session report with
  | nil => exact ⟨session, report, rfl, Except.ok.inj accepted⟩
  | cons asked rest ih =>
      cases asked with
      | none => exact ih (report.count none) accepted
      | some edit =>
          rw [List.filterMap_cons_some (show id (some edit) = some edit from rfl), List.map_cons,
            Store.addAll] at accepted
          split at accepted
          next => simp at accepted
          next next outcome added =>
            obtain ⟨grown, recorded, store⟩ := add_of_store added
            rw [← store] at accepted
            rw [record, recorded]
            exact ih (report.count (some outcome)) accepted

theorem runFrom_of_addAll {tool : Tool} {policy : Policy} {found : Source → Matches}
    (session : Session) {sources : List Source} {final : Store} (reports : Array UnitReport)
    (accepted : session.store.addAll (sources.flatMap (tool.requests policy found)) = .ok final) :
    ∃ next reports', runFrom tool policy (fun source => .ok (found source)) session reports sources =
      (next, .ok reports') ∧ next.store = final := by
  induction sources generalizing session reports with
  | nil => exact ⟨session, reports.toList, rfl, Except.ok.inj accepted⟩
  | cons source rest ih =>
      rw [List.flatMap_cons] at accepted
      obtain ⟨middle, first, second⟩ := Store.addAll_append accepted
      obtain ⟨next, report, recorded, store⟩ :=
        record_of_addAll ⟨source.relativePath, 0, 0, 0⟩ first
      have unit : runUnit tool policy (fun source => .ok (found source)) session source =
          (next, .ok report) := by
        simp [runUnit, recorded, Except.mapError]
      rw [← store] at second
      rw [runFrom, unit]
      exact ih next (reports.push report) second

end Session

theorem eq_of_sameEntry {sources : List Source}
    (distinct : sources.Pairwise fun left right => ¬left.path.SameEntry right.path)
    {left right : Source} (leftMember : left ∈ sources) (rightMember : right ∈ sources)
    (same : left.path.SameEntry right.path) : left = right := by
  have : Std.Symm fun left right : Source => ¬left.path.SameEntry right.path :=
    ⟨fun _ _ different found => different found.symm⟩
  by_contra different
  exact distinct.forall leftMember rightMember different same

section Requests

variable (tool : Tool) (policy : Policy) (catalog : Catalog) {sources : List Source}

theorem source_of_request {request : Source × Patch}
    (member : request ∈ sources.flatMap (tool.requests policy (Matches.ofSource catalog))) :
    request.1 ∈ sources ∧ request.2.Fits request.1.text.toList := by
  obtain ⟨source, inSources, asked⟩ := List.mem_flatMap.mp member
  obtain ⟨edit, inEdits, rfl⟩ := List.mem_map.mp asked
  exact ⟨inSources, (tool.edits_compatible policy source catalog).2 edit inEdits⟩

theorem requests_agree
    (distinct : sources.Pairwise fun left right => ¬left.path.SameEntry right.path) :
    (sources.flatMap (tool.requests policy (Matches.ofSource catalog))).Pairwise
      Store.RequestsAgree := by
  refine List.pairwise_flatMap.mpr ⟨fun source _ => ?_, distinct.imp fun different => ?_⟩
  · have compatible := (tool.edits_compatible policy source catalog).1
    exact List.pairwise_map.mpr ((List.pairwise_map.mp compatible).imp fun agree _ => .inr agree)
  · intro left inLeft right inRight same
    obtain ⟨_, _, rfl⟩ := List.mem_map.mp inLeft
    obtain ⟨_, _, rfl⟩ := List.mem_map.mp inRight
    exact absurd same different

/-- Whatever holds the patches of a run can be applied to the sources. -/
theorem splice_of_reflects
    (distinct : sources.Pairwise fun left right => ¬left.path.SameEntry right.path)
    {requests : List (Source × Patch)}
    (perm : requests.Perm (sources.flatMap (tool.requests policy (Matches.ofSource catalog))))
    {store : Store} (reflects : store.Reflects requests) {set : PatchSet}
    (member : set ∈ store.toSets) :
    ∃ source ∈ sources, set.path = source.path ∧
      ∃ rewritten, Patch.splice source.text set.patches = .ok rewritten := by
  have inSets : set ∈ store.sets :=
    (List.mem_filter.mp (List.mem_mergeSort.mp member)).1
  obtain ⟨⟨source, first⟩, known, path, -⟩ := reflects.header set inSets
  obtain ⟨inSources, -⟩ := source_of_request tool policy catalog (perm.mem_iff.mp known)
  refine ⟨source, inSources, path, Patch.splice_succeeds ?_ ?_⟩
  · exact (reflects.consistent.ordered set inSets).imp Patch.Precedes.compatible
  · intro patch inSet
    have recorded : patch.content ∈ (store.recorded source.path).map Patch.content := by
      rw [Store.recorded_of_mem reflects.consistent inSets (path ▸ rfl)]
      exact List.mem_map_of_mem inSet
    obtain ⟨⟨other, asked⟩, otherKnown, same, content⟩ :=
      (reflects.contents source.path patch.content).mp recorded
    obtain ⟨otherSource, fits⟩ :=
      source_of_request tool policy catalog (perm.mem_iff.mp otherKnown)
    obtain rfl : other = source := eq_of_sameEntry distinct otherSource inSources same
    obtain ⟨offset, edit⟩ := Patch.content_eq_iff.mp content
    exact ⟨offset ▸ fits.start, offset ▸ edit.1 ▸ fits.stop⟩

end Requests

namespace Session

/-- Whatever the texts of the sources are, their edits never contradict each other, in whatever order
they are added, and the patches recorded for each file can be applied to its text. -/
theorem run_succeeds (tool : Tool) (policy : Policy) (catalog : Catalog) {sources : List Source}
    (distinct : sources.Pairwise fun left right => ¬left.path.SameEntry right.path) :
    let found := Matches.ofSource catalog
    let (session, result) := run tool policy (fun source => .ok (found source)) sources
    let applies (sets : List PatchSet) : Prop := ∀ set ∈ sets, ∃ source ∈ sources,
      set.path = source.path ∧ ∃ rewritten, Patch.splice source.text set.patches = .ok rewritten
    (∃ reports, result = .ok reports) ∧ applies session.store.toSets ∧
    ∀ requests, requests.Perm (sources.flatMap (tool.requests policy found)) →
      ∃ final, Store.empty.addAll requests = .ok final ∧ applies final.toSets := by
  intro found
  have agree := requests_agree tool policy catalog distinct
  have accepts (requests : List (Source × Patch))
      (perm : requests.Perm (sources.flatMap (tool.requests policy found))) :
      ∃ final, Store.empty.addAll requests = .ok final :=
    (Store.addAll_ok_iff requests).mpr
      (perm.symm.pairwise agree fun related => related.symm)
  obtain ⟨final, accepted⟩ := accepts _ (.refl _)
  obtain ⟨session, reports, runs, store⟩ := runFrom_of_addAll empty #[] accepted
  rw [run, runs]
  refine ⟨⟨reports, rfl⟩, fun set member => ?_, fun requests perm => ?_⟩
  · rw [store] at member
    exact splice_of_reflects tool policy catalog distinct (.refl _) (Store.addAll_reflects accepted)
      member
  · obtain ⟨other, otherAccepted⟩ := accepts requests perm
    exact ⟨other, otherAccepted, fun set member => splice_of_reflects tool policy catalog distinct
      perm (Store.addAll_reflects otherAccepted) member⟩

/-- Two files whose names differ in a letter; both using-statements go. -/
theorem run_succeeds_pair :
    let first : Source := ⟨⟨"/p/a.cpp"⟩, "a.cpp", "using namespace std;\nstring s;\n"⟩
    let second : Source := ⟨⟨"/p/b.cpp"⟩, "b.cpp", "  using std::string; string t;\n"⟩
    let found := Matches.ofSource Catalog.builtin
    [first, second].Pairwise (fun left right => ¬left.path.SameEntry right.path) ∧
    ∃ reports, (run .inlineNamespaces .standard (fun source => .ok (found source))
      [first, second]).2 = .ok reports := by
  intro first second found
  have distinct : [first, second].Pairwise fun left right => ¬left.path.SameEntry right.path := by
    refine List.pairwise_pair.mpr ?_
    decide
  -- over a variable list, since a projection from the run of these two files would evaluate it
  have succeeds (sources : List Source)
      (distinct : sources.Pairwise fun left right => ¬left.path.SameEntry right.path) :
      ∃ reports, (run .inlineNamespaces .standard (fun source => .ok (found source))
        sources).2 = .ok reports :=
    (run_succeeds .inlineNamespaces .standard Catalog.builtin distinct).1
  exact ⟨distinct, succeeds [first, second] distinct⟩

end Session

end Requalify
