import Requalify.Proofs.Edit.Disambiguated
import Requalify.Proofs.Idempotence

/-!
Naming twice. After one run no source has an anonymous namespace, provided that the scan of the sources
passes over none of them, and a second run records nothing.
-/

namespace Requalify

namespace Environment

variable {environment : Environment}
  (plain : ∀ id, (environment.outline.scope id).kind ≠ .anonymous)

include plain

theorem isInAnonymous_eq_false (id : Nat) : environment.outline.isInAnonymous id = false := by
  refine List.any_eq_false.mpr fun level _ => ?_
  simpa using plain level

theorem fileMember_eq_none (space : NamespacePath) (name : String) :
    environment.fileMember space name = none := by
  refine List.findSome?_eq_none_iff.mpr fun declared _ => ?_
  simp [isInAnonymous_eq_false plain]

theorem qualified_not_anonymous {space : NamespacePath} {name : String} {found : Found}
    (located : environment.qualified space name = some found) : found.anonymous = false := by
  rw [qualified, fileMember_eq_none plain] at located
  obtain ⟨declaration, -, rfl⟩ := Option.map_eq_some_iff.mp located
  rfl

theorem member_not_anonymous {space : NamespacePath} {name : String} {found : Found}
    (located : environment.member space name = some found) : found.anonymous = false := by
  unfold member at located
  split at located
  next isMember =>
    obtain rfl := Option.some.inj located
    exact qualified_not_anonymous plain isMember
  next =>
    split at located
    next => simp at located
    next =>
      obtain rfl := Option.some.inj located
      rfl

theorem memberAt_not_anonymous {directives : List VisibleDirective} {name : String} {scope : Scope}
    {found : Found} (located : environment.memberAt directives name scope = some found) :
    found.anonymous = false := by
  simp only [memberAt, fileMember_eq_none plain] at located
  split at located
  next =>
    obtain rfl := Option.some.inj located
    rfl
  next =>
    obtain ⟨directive, -, isMember⟩ := List.exists_of_findSome?_eq_some located
    exact qualified_not_anonymous plain isMember

theorem unqualified_not_anonymous {scope offset : Nat} {name : String} {found : Found}
    (located : environment.unqualified scope offset name = some found) : found.anonymous = false := by
  obtain ⟨level, -, isMember⟩ := List.exists_of_findSome?_eq_some located
  split at isMember
  next =>
    obtain rfl := Option.some.inj isMember
    rfl
  next =>
    dsimp only at isMember
    split at isMember
    next => exact memberAt_not_anonymous plain isMember
    next => simp at isMember

/-- In a file without anonymous namespaces nothing is found in one. -/
theorem resolve_not_anonymous {mention : Mention} {resolved : Resolved}
    (located : environment.resolve mention = .found resolved) : resolved.anonymous = false := by
  have found := find?_of_resolve located
  unfold find? at found
  split at found
  next => exact unqualified_not_anonymous plain found
  next => exact member_not_anonymous plain found

end Environment

/-- A text without anonymous namespaces asks for no name. -/
theorem Tool.edits_plain (policy : Policy) (catalog : Catalog) {source : Source}
    (nothing : (Outline.ofText source.text).anonymousNamespaces = []) :
    disambiguateSymbols.edits policy source (Matches.ofSource catalog source) = [] := by
  have plain := Outline.kind_ne_anonymous nothing
  rw [← Environment.ofOutline_outline (Outline.ofText source.text) catalog] at plain nothing
  have references : (Matches.ofSource catalog source).anonymousReferences = [] := by
    rw [Matches.ofSource, Matches.ofEnvironment]
    refine List.filterMap_eq_nil_iff.mpr fun item member => ?_
    obtain ⟨scope, resolved⟩ := item
    obtain ⟨mention, -, located⟩ := List.mem_filterMap.mp member
    have same : resolved.anonymous = false := by
      split at located
      next item found =>
        obtain ⟨-, rfl⟩ := Prod.mk.inj (Option.some.inj located)
        exact Environment.resolve_not_anonymous plain found
      next => simp at located
    simp [same]
  have namespaces : (Matches.ofSource catalog source).anonymousNamespaces = [] := nothing
  simp [edits, references, namespaces]

namespace Session

theorem runFrom_congr {tool : Tool} {policy : Policy} {analyze other : Source → Except RunError Matches}
    (session : Session) (reports : Array UnitReport) {sources : List Source}
    (same : ∀ source ∈ sources, analyze source = other source) :
    runFrom tool policy analyze session reports sources =
      runFrom tool policy other session reports sources := by
  induction sources generalizing session reports with
  | nil => rfl
  | cons source sources ih =>
      obtain ⟨here, others⟩ := List.forall_mem_cons.mp same
      have unit : runUnit tool policy analyze session source = runUnit tool policy other session source := by
        rw [runUnit, runUnit, here]
      rw [runFrom, runFrom, unit]
      split
      next => rfl
      next => exact ih _ _ others

end Session

/-- Applying what is recorded for a source. -/
theorem Source.patched?_eq {store : Store} (consistent : store.Consistent)
    {source : Source} (fits : ∀ patch ∈ store.recorded source.path, patch.Fits source.text.toList) :
    source.patched? store.toSets = some { source with
      text := String.ofList (Patch.rewrite (store.recorded source.path) source.text.toList) } := by
  have compatible := (Store.recorded_pairwise consistent source.path).imp Patch.Precedes.compatible
  have inSets {set : PatchSet} (member : set ∈ store.sets) (same : set.path.SameEntry source.path)
      (nonempty : set.patches ≠ []) : set ∈ store.toSets := by
    refine List.mem_mergeSort.mpr (List.mem_filter.mpr ⟨member, ?_⟩)
    simpa using nonempty
  rw [patched?]
  cases found : store.toSets.find? (·.path.SameEntry source.path) with
  | none =>
      have nothing : store.recorded source.path = [] := by
        refine List.eq_nil_iff_forall_not_mem.mpr fun patch isRecorded => ?_
        obtain ⟨set, member, same, inSet⟩ := Store.mem_recorded.mp isRecorded
        have absent := List.find?_eq_none.mp found set (inSets member same (List.ne_nil_of_mem inSet))
        exact absent (by simpa using same)
      rw [nothing, Patch.rewrite_nil, String.ofList_toList]
  | some set =>
      have same : set.path.SameEntry source.path := by simpa using List.find?_some found
      have member : set ∈ store.sets :=
        (List.mem_filter.mp (List.mem_mergeSort.mp (List.mem_of_find?_eq_some found))).1
      have recorded := Store.recorded_of_mem consistent member same
      rw [recorded] at compatible fits ⊢
      simp [Patch.splice_eq_rewrite compatible fits, Except.toOption]

namespace Session

/-- The run of a tool over sources with different paths, as the store of what it records. -/
theorem exists_store (tool : Tool) (policy : Policy) (headers headerExtensions : List String)
    {sources : List Source}
    (distinct : sources.Pairwise fun left right => ¬left.path.SameEntry right.path) :
    let codebase := Codebase.ofSources headers headerExtensions sources
    let requests := sources.flatMap (tool.requests policy (Matches.ofSource codebase.catalog))
    ∃ reports, (run tool policy (fun source => .ok (codebase.analyze source)) sources).2 = .ok reports ∧
      (run tool policy (fun source => .ok (codebase.analyze source)) sources).1.store.Reflects
        requests := by
  intro codebase requests
  obtain ⟨final, accepted⟩ := (Store.addAll_ok_iff requests).mpr
    (requests_agree tool policy codebase.catalog distinct)
  obtain ⟨session, reports, runs, store⟩ := runFrom_of_addAll empty #[] accepted
  have same : run tool policy (fun source => .ok (codebase.analyze source)) sources =
      (session, .ok reports) := by
    rw [run, ← runs]
    exact runFrom_congr empty #[] fun source member => congrArg _ (Codebase.analyze_eq distinct member)
  rw [same]
  refine ⟨reports, rfl, ?_⟩
  rw [store]
  exact Store.addAll_reflects accepted

/-- What is recorded for a source is what its edits ask for. -/
theorem content_recorded {tool : Tool} {policy : Policy} {found : Source → Matches}
    {sources : List Source} {store : Store}
    (reflects : store.Reflects (sources.flatMap (tool.requests policy found)))
    (distinct : sources.Pairwise fun left right => ¬left.path.SameEntry right.path) {source : Source}
    (member : source ∈ sources) (content : Nat × Nat × String) :
    content ∈ (store.recorded source.path).map Patch.content ↔
      content ∈ (((tool.edits policy source (found source)).filterMap id).map (·.patch)).map
        Patch.content := by
  rw [reflects.contents]
  constructor
  · rintro ⟨request, asked, same, rfl⟩
    obtain ⟨other, inSources, isRequest⟩ := List.mem_flatMap.mp asked
    obtain ⟨edit, inEdits, rfl⟩ := List.mem_map.mp isRequest
    obtain rfl : other = source := eq_of_sameEntry distinct inSources member same
    exact List.mem_map_of_mem (List.mem_map_of_mem inEdits)
  · intro isContent
    obtain ⟨_, inPatches, rfl⟩ := List.mem_map.mp isContent
    obtain ⟨edit, inEdits, rfl⟩ := List.mem_map.mp inPatches
    exact ⟨(source, edit.patch), List.mem_flatMap.mpr ⟨source, member, List.mem_map_of_mem inEdits⟩,
      rfl, rfl⟩

theorem mapM_eq_some {α β : Type} {partial? : α → Option β} {total : α → β} {items : List α}
    (same : ∀ item ∈ items, partial? item = some (total item)) :
    items.mapM partial? = some (items.map total) := by
  induction items with
  | nil => rfl
  | cons item items ih =>
      obtain ⟨here, others⟩ := List.forall_mem_cons.mp same
      rw [List.mapM_cons, here, ih others]
      rfl

/-- After one run no source has an anonymous namespace, and a second run records nothing and finds nothing
to count. -/
theorem second_run_names_nothing (policy : Policy) (headers headerExtensions : List String)
    {sources : List Source}
    (distinct : sources.Pairwise fun left right => ¬left.path.SameEntry right.path)
    (free : ∀ source ∈ sources, moduleName source.relativePath ∉ keywords)
    (known : ∀ source ∈ sources, Outline.KnowsAnonymous source.text) :
    ∃ rewritten, rewritten? .disambiguateSymbols policy headers headerExtensions sources =
        some rewritten ∧
      (∀ new ∈ rewritten, (Outline.ofText new.text).anonymousNamespaces = []) ∧
      let again := (Codebase.ofSources headers headerExtensions rewritten).analyze
      run .disambiguateSymbols policy (fun source => .ok (again source)) rewritten =
        (empty, .ok (rewritten.map fun source => ⟨source.relativePath, 0, 0, 0⟩)) := by
  obtain ⟨reports, -, reflects⟩ :=
    exists_store .disambiguateSymbols policy headers headerExtensions distinct
  let codebase := Codebase.ofSources headers headerExtensions sources
  let store := (run .disambiguateSymbols policy (fun source => .ok (codebase.analyze source))
    sources).1.store
  let named (source : Source) : Source := { source with
    text := String.ofList (Patch.rewrite (store.recorded source.path) source.text.toList) }
  have same {source : Source} (member : source ∈ sources) := content_recorded reflects distinct member
  have compatible (source : Source) : (store.recorded source.path).Pairwise Patch.Compatible :=
    (Store.recorded_pairwise reflects.consistent source.path).imp Patch.Precedes.compatible
  have fits (source : Source) (member : source ∈ sources) (patch : Patch)
      (recorded : patch ∈ store.recorded source.path) : patch.Fits source.text.toList := by
    obtain ⟨asked, isAsked, offset, span, -⟩ :=
      Patch.exists_same (fun content => (same member content).mp) recorded
    obtain ⟨edit, inEdits, rfl⟩ := List.mem_map.mp isAsked
    have fits := (Tool.disambiguateSymbols.edits_compatible policy source codebase.catalog).2 edit inEdits
    have stop : edit.patch.offset + edit.patch.length = patch.offset + patch.length :=
      congrArg Span.stop span
    exact ⟨offset ▸ fits.start, stop ▸ fits.stop⟩
  have plain (new : Source) (member : new ∈ sources.map named) :
      (Outline.ofText new.text).anonymousNamespaces = [] := by
    obtain ⟨source, inSources, rfl⟩ := List.mem_map.mp member
    obtain ⟨whole, parts, reads⟩ := Chunk.exists_reads true source.text.toList
    exact Source.anonymousNamespaces_named (same inSources) (compatible source) (known source inSources)
      parts reads (moduleName_isName (free source inSources))
  refine ⟨sources.map named, ?_, plain, ?_⟩
  · have patched (source : Source) (member : source ∈ sources) :
        source.patched? store.toSets = some (named source) :=
      Source.patched?_eq reflects.consistent (fits source member)
    exact mapM_eq_some patched
  · have distinctNamed : (sources.map named).Pairwise fun left right =>
        ¬left.path.SameEntry right.path := List.pairwise_map.mpr distinct
    intro again
    have nothing (new : Source) (member : new ∈ sources.map named) :
        Tool.disambiguateSymbols.edits policy new (again new) = [] := by
      rw [show again new = _ from Codebase.analyze_eq distinctNamed member]
      exact Tool.edits_plain policy _ (plain new member)
    rw [run, runFrom_nothing empty #[] fun new member => by simp [nothing new member]]
    have reported : (sources.map named).map (fun source => unchangedReport source
          (Tool.disambiguateSymbols.edits policy source (again source))) =
        (sources.map named).map fun source => ⟨source.relativePath, 0, 0, 0⟩ :=
      List.map_congr_left fun new member => by rw [unchangedReport, nothing new member, List.length_nil]
    rw [← reported]
    rfl

set_option maxRecDepth 100000 in
/-- The namespace gets its name, and the use of its member is qualified. -/
theorem second_run_names_nothing_member :
    let source : Source := ⟨⟨"/p/a.cpp"⟩, "a.cpp", "namespace \x7b int x; \x7d\nint y = ::x;\n"⟩
    let rewritten := { source with text := "namespace a \x7b int x; \x7d\nint y = a::x;\n" }
    let again := (Codebase.ofSources [] [] [rewritten]).analyze
    rewritten? .disambiguateSymbols .standard [] [] [source] = some [rewritten] ∧
      (Outline.ofText rewritten.text).anonymousNamespaces = [] ∧
      run .disambiguateSymbols .standard (fun source => .ok (again source)) [rewritten] =
        (empty, .ok [⟨"a.cpp", 0, 0, 0⟩]) := by
  intro source rewritten again
  let patches : List Patch := [Patch.insert 9 " a" Edit.nameNamespaceLabel,
    Patch.insert 29 "a" Edit.qualifyLabel]
  have evaluated : (∀ source' ∈ [source], moduleName source'.relativePath ∉ keywords) ∧
      (∀ source' ∈ [source], Outline.KnowsAnonymous source'.text) ∧
      ((run .disambiguateSymbols .standard
        (fun source' => .ok ((Codebase.ofSources [] [] [source]).analyze source'))
        [source]).1.store.toSets.map fun set => (set.path, set.patches)) =
        [(source.path, patches)] := by
    decide +kernel
  obtain ⟨free, known, recorded⟩ := evaluated
  have result : rewritten? .disambiguateSymbols .standard [] [] [source] = some [rewritten] :=
    rewritten?_of_patches recorded (by decide) (by decide +kernel)
  obtain ⟨named, first, plain, second⟩ := second_run_names_nothing .standard [] []
    (List.pairwise_singleton _ source) free known
  obtain rfl : [rewritten] = named := Option.some.inj (result.symm.trans first)
  exact ⟨result, plain rewritten (List.mem_singleton_self _), second⟩

/-- After one run no source has an anonymous namespace, and a second run records no patch. -/
def NamesOnce (policy : Policy) (headers headerExtensions : List String) (sources : List Source) :
    Prop :=
  ∃ rewritten ∈ rewritten? .disambiguateSymbols policy headers headerExtensions sources,
    (∀ new ∈ rewritten, (Outline.ofText new.text).anonymousNamespaces = []) ∧
    let again := (Codebase.ofSources headers headerExtensions rewritten).analyze
    (run .disambiguateSymbols policy (fun source => .ok (again source)) rewritten).1.store.toSets = []

set_option maxRecDepth 100000 in
/-- In front of a leading `::` the name becomes a part of the keyword there, and what this keyword has made
the scan pass over is not passed over any more. -/
theorem second_run_names_again : ¬∀ sources : List Source,
    sources.Pairwise (fun left right => ¬left.path.SameEntry right.path) →
    (∀ source ∈ sources, moduleName source.relativePath ∉ keywords) →
    NamesOnce .standard [] [] sources := by
  intro once
  let source : Source := ⟨⟨"/p/a.cpp"⟩, "a.cpp",
    "namespace \x7b int x; \x7d\nclass alignas::x alignas(template <) y : namespace \x7b \x7d\n"⟩
  let named : String :=
    "namespace a \x7b int x; \x7d\nclass alignasa::x alignas(template <) y : namespace \x7b \x7d\n"
  let patches : List Patch := [Patch.insert 9 " a" Edit.nameNamespaceLabel,
    Patch.insert 34 "a" Edit.qualifyLabel]
  have result : rewritten? .disambiguateSymbols .standard [] [] [source] =
      some [{ source with text := named }] :=
    rewritten?_of_patches (show _ = [(source.path, patches)] by decide +kernel) (by decide)
      (by decide +kernel)
  obtain ⟨rewritten, isRewritten, plain, -⟩ := once [source] (List.pairwise_singleton _ _)
    (by decide +kernel)
  obtain rfl := Option.some.inj (result.symm.trans isRewritten)
  exact absurd (plain _ (List.mem_singleton_self _)) (by decide +kernel)

end Session

end Requalify
