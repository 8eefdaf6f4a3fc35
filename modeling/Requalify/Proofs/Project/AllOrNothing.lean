import Requalify.Proofs.Project.Writing

/-!
A run changes files all or nothing. What it reads comes before what it writes, and each set that it applies
is on its own: one that fails leaves the disk to the others as it found it.
-/

namespace Requalify.Project

variable {σ τ File : Type} [DecidableEq File] {view : σ → Holdings File} {disk : Disk (StateM σ)}
  {screen : Screen (Action τ σ)}

section Independence

/-- The action, and what becomes of the disk, do not depend on the state beside it. -/
def Forgets {α : Type} (action : Action τ σ α) : Prop :=
  ∀ t t' s, ((action.run t).run s).1.1 = ((action.run t').run s).1.1 ∧
    ((action.run t).run s).2 = ((action.run t').run s).2

namespace Forgets

variable {α β : Type}

theorem pure (value : α) : Forgets (Pure.pure value : Action τ σ α) :=
  fun _ _ _ => ⟨rfl, rfl⟩

theorem beside (action : StateM σ α) : Forgets (liftM action : Action τ σ α) :=
  fun _ _ _ => ⟨rfl, rfl⟩

theorem bind {action : Action τ σ α} {next : α → Action τ σ β}
    (first : Forgets action) (second : ∀ value, Forgets (next value)) : Forgets (action >>= next) := by
  intro t t' s
  obtain ⟨answer, state⟩ := first t t' s
  have others := second ((action.run t).run s).1.1 ((action.run t).run s).1.2 ((action.run t').run s).1.2
    ((action.run t).run s).2
  change _ = (((next ((action.run t').run s).1.1).run _).run ((action.run t').run s).2).1.1 ∧
    _ = (((next ((action.run t').run s).1.1).run _).run ((action.run t').run s).2).2
  rw [← answer, ← state]
  exact others

end Forgets

/-- What a screen has shown does not matter to it, and it does not touch the disk. -/
structure Screen.Forgetful (screen : Screen (Action τ σ)) : Prop where
  forgets : ∀ text, Forgets (screen text)
  traceless : screen.Discreet id

theorem keeping_discreet {V : Type} (view : σ → V) : (Screen.keeping (StateM σ)).Discreet view :=
  fun _ _ _ => ⟨rfl, trivial⟩

theorem keeping_forgetful : (Screen.keeping (StateM σ)).Forgetful where
  forgets _ _ _ _ := ⟨rfl, rfl⟩
  traceless := keeping_discreet id

variable (disk) (mode : OutputMode)

theorem showAll_forgets (forgetful : screen.Forgetful) (texts : List String) :
    Forgets (showAll screen texts) := by
  induction texts with
  | nil => exact .pure _
  | cons text rest ih =>
      refine (forgetful.forgets text).bind fun answer => ?_
      cases answer with
      | error cause => exact .pure _
      | ok _ => exact ih

theorem applySet_forgets (forgetful : screen.Forgetful) (set : PatchSet) :
    Forgets (applySet disk.beside screen mode set) := by
  have reads : Forgets (PatchedFile.ofSet disk.beside set : Action τ σ _) := by
    refine .bind (.bind (.beside (disk.read set.path)) fun answer => ?_) fun answer => ?_
    · cases answer with
      | error cause => exact .pure _
      | ok content =>
          dsimp only
          split <;> exact .pure _
    · cases answer <;> exact .pure _
  refine reads.bind fun answer => ?_
  cases answer with
  | error cause => exact .pure _
  | ok file =>
      refine (showAll_forgets forgetful _).bind fun answer => ?_
      cases answer with
      | error cause => exact .pure _
      | ok _ =>
          dsimp only
          split
          next =>
            refine .bind (.bind (.beside (disk.write file.path file.after.toUTF8)) fun _ => .pure _)
              fun answer => ?_
            cases answer <;> exact .pure _
          next => exact .pure _

theorem applyAll_forgets (forgetful : screen.Forgetful) (sets : List PatchSet) :
    Forgets (applyAll disk.beside screen mode sets) := by
  induction sets with
  | nil => exact .pure _
  | cons set rest ih =>
      rw [applyAll, List.mapM_cons]
      exact (applySet_forgets disk mode forgetful set).bind fun _ => ih.bind fun _ => .pure _

variable {disk}

/-- A set that fails leaves no trace. -/
theorem applySet_traceless (traceless : disk.Traceless) (forgetful : screen.Forgetful) (set : PatchSet) :
    Acts id (applySet disk.beside screen mode set) fun held result next =>
      ∀ cause, result.status = .failed cause → next = held := by
  have first : Asks id (disk.beside.readText set.path : Action τ σ _) fun _ _ => True := by
    have answers : Asks id (disk.beside.read set.path : Action τ σ _) fun _ _ => True :=
      fun _ s => ⟨traceless.read set.path s, trivial⟩
    refine answers.bind fun answer => ?_
    cases answer with
    | error cause => exact .pure fun _ _ => trivial
    | ok content =>
        dsimp only
        split <;> exact .pure fun _ _ => trivial
  have asks : Asks id (PatchedFile.ofSet disk.beside set : Action τ σ _) fun _ _ => True :=
    first.bind fun answer => by cases answer <;> exact .pure fun _ _ => trivial
  refine asks.andThen fun answer => ?_
  cases answer with
  | error cause => exact fun _ _ _ _ _ => rfl
  | ok file =>
      refine (showAll_asks forgetful.traceless _).andThen fun answer => ?_
      cases answer with
      | error cause => exact fun _ _ _ _ _ _ => rfl
      | ok _ =>
          dsimp only
          split
          next =>
            have writes : Acts id (file.write disk.beside : Action τ σ _) fun held answer next =>
                ∀ cause, answer = .error cause → next = held := by
              intro t s cause refused
              cases answered : ((disk.write file.path file.after.toUTF8).run s).1 with
              | error reason => exact traceless.write_error _ _ s reason answered
              | ok _ =>
                  change ((disk.write file.path file.after.toUTF8).run s).1.mapError _ = _ at refused
                  rw [answered] at refused
                  cases refused
            refine writes.bind fun answer held => ?_
            cases answer with
            | error cause => exact fun _ _ same _ _ _ _ => same _ rfl
            | ok _ => exact fun _ _ _ _ _ _ same => by cases same
          next => exact fun _ _ _ _ _ _ => rfl

/-- The others fare without a failing set as they do with it. -/
theorem applyAll_eraseIdx (traceless : disk.Traceless) (forgetful : screen.Forgetful)
    {sets : List PatchSet} {index : Nat} {t : τ} {s : σ} {result : FileResult} {cause : RunError}
    (given : (((applyAll disk.beside screen mode sets).run t).run s).1.1[index]? = some result)
    (failed : result.status = .failed cause) :
    (((applyAll disk.beside screen mode (sets.eraseIdx index)).run t).run s).1.1 =
      (((applyAll disk.beside screen mode sets).run t).run s).1.1.eraseIdx index ∧
    (((applyAll disk.beside screen mode (sets.eraseIdx index)).run t).run s).2 =
      (((applyAll disk.beside screen mode sets).run t).run s).2 := by
  induction sets generalizing index t s with
  | nil => exact ⟨rfl, rfl⟩
  | cons set rest ih =>
      rw [applyAll_cons] at given ⊢
      cases index with
      | zero =>
          obtain rfl := Option.some.inj given
          have state := applySet_traceless mode traceless forgetful set t s cause failed
          obtain ⟨results, final⟩ := applyAll_forgets disk mode forgetful rest t
            ((applySet disk.beside screen mode set).run t |>.run s).1.2 s
          change ((applySet disk.beside screen mode set).run t |>.run s).2 = s at state
          rw [List.eraseIdx_cons_zero, List.eraseIdx_cons_zero]
          simp only [state]
          exact ⟨results, final⟩
      | succ index =>
          rw [List.eraseIdx_cons_succ, applyAll_cons, List.eraseIdx_cons_succ]
          obtain ⟨results, state⟩ := ih given
          exact ⟨congrArg _ results, state⟩

end Independence

/-- How a run has changed files that it wanted to patch with `sets`, in this order, from the texts of
`sources`. It began to do so with the disk in state `s` and left it in state `ended`. -/
structure Accounts (disk : Disk (StateM σ)) (screen : Screen (Action τ σ)) (view : σ → Holdings File)
    (mode : OutputMode) (sources : List Source) (sets : List PatchSet) (t : τ) (s : σ)
    (results : List FileResult) (ended : σ) : Prop where
  reported : results.map (fun result => (result.file, result.patches)) =
    sets.map fun set => (set.relativePath, set.patches.length)
  last : heldAfter disk screen mode view sets t s sets.length = view ended
  /-- A file keeps its content through all sets, or a written set changes it and no other does. -/
  once : ∀ file,
    (∀ count ≤ sets.length,
      (heldAfter disk screen mode view sets t s count).content file = (view s).content file) ∨
    ∃ index < sets.length, ∃ set source after, sets[index]? = some set ∧
      results[index]?.map (·.status) = some .written ∧
      Rewrites sources (view s) file set source after ∧
      ∀ count ≤ sets.length, (heldAfter disk screen mode view sets t s count).content file =
        if count ≤ index then source.text.toUTF8 else after.toUTF8
  failures : ∀ index cause, results[index]?.map (·.status) = some (.failed cause) →
    heldAfter disk screen mode view sets t s (index + 1) = heldAfter disk screen mode view sets t s index
  spared : ∀ file, (∀ (index : Nat) set, sets[index]? = some set → (view s).named set.path = some file →
      ∃ cause, results[index]?.map (·.status) = some (.failed cause)) →
    (view ended).content file = (view s).content file
  /-- Without a set that failed, the others have the same results and leave the same disk. -/
  independent : disk.Traceless → screen.Forgetful →
    ∀ index cause, results[index]?.map (·.status) = some (.failed cause) →
      (((applyAll disk.beside screen mode (sets.eraseIdx index)).run t).run s).1.1 =
        results.eraseIdx index ∧
      (((applyAll disk.beside screen mode (sets.eraseIdx index)).run t).run s).2 = ended

theorem applyAll_accounts (lawful : disk.Lawful view) (discreet : screen.Discreet view)
    (mode : OutputMode) {sources : List Source} {sets : List PatchSet} (t : τ) (s : σ)
    (analyzed : ∀ source ∈ sources, (view s).Holds source.path source.text)
    (recorded : ∀ set ∈ sets, ∃ source ∈ sources, source.path = set.path ∧ source.digest = set.digest)
    (tells : Tells sources sets) :
    let applied := ((applyAll disk.beside screen mode sets).run t).run s
    Accounts disk screen view mode sources sets t s applied.1.1 applied.2 := by
  intro applied
  have ended : heldAfter disk screen mode view sets t s sets.length = view applied.2 := by
    rw [heldAfter, List.take_length]
  have once := fun file => heldAfter_content lawful discreet mode t s analyzed recorded tells file
    (Nat.le_refl sets.length)
  have length := applyAll_length disk screen mode sets t s
  refine ⟨?_, ended, once, ?_, ?_, ?_⟩
  · refine List.ext_getElem (by simpa using length) fun index _ bound => ?_
    rw [List.length_map] at bound
    obtain ⟨result, given, file, patches, -⟩ :=
      applyAll_step lawful discreet mode (List.getElem?_eq_getElem bound) t s
    obtain ⟨_, rfl⟩ := List.getElem?_eq_some_iff.mp given
    simp only [List.getElem_map, ← file, ← patches]
    rfl
  · intro index cause failed
    obtain ⟨result, given, status⟩ := Option.map_eq_some_iff.mp failed
    have bound : index < sets.length := length ▸ (List.getElem?_eq_some_iff.mp given).1
    obtain ⟨other, same, -, -, step⟩ :=
      applyAll_step lawful discreet mode (List.getElem?_eq_getElem bound) t s
    obtain rfl := Option.some.inj (given.symm.trans same)
    exact step.unchanged (.inl (by simp [status]))
  · intro file onlyFailed
    rcases once file with same | ⟨index, -, set, source, after, found, written, rewrites, -⟩
    · rw [← ended]
      exact same sets.length (Nat.le_refl _)
    · obtain ⟨cause, failed⟩ := onlyFailed index set found rewrites.named
      rw [written] at failed
      cases failed
  · intro traceless forgetful index cause failed
    obtain ⟨result, given, status⟩ := Option.map_eq_some_iff.mp failed
    exact applyAll_eraseIdx mode traceless forgetful given status

/-- Without leave to overwrite, the sets change nothing. -/
theorem applyAll_kept (lawful : disk.Lawful view) (discreet : screen.Discreet view)
    {mode : OutputMode} (kept : mode.overwrite = false) (sets : List PatchSet) :
    Asks view (applyAll disk.beside screen mode sets) fun _ _ => True := by
  have each (set : PatchSet) : Asks view (applySet disk.beside screen mode set) fun _ _ => True :=
    fun t s => ⟨(applySet_acts lawful discreet mode set t s).2.2.unchanged (.inr kept), trivial⟩
  induction sets with
  | nil => exact .pure fun _ => trivial
  | cons set rest ih =>
      rw [applyAll, List.mapM_cons]
      exact (each set).bind fun _ => ih.bind fun _ => .pure fun _ _ _ => trivial

/-- What a job reads before anything is patched. -/
def asked (disk : Disk (StateM σ)) (job : Job) (t : τ) (s : σ) : (Except RunError Contents × τ) × σ :=
  ((contents (m := Action τ σ) disk.beside job.root job.settings job.files).run.run t).run s

omit [DecidableEq File] in
theorem runOn_asked (disk : Disk (StateM σ)) (screen : Screen (Action τ σ)) (job : Job) (t : τ) (s : σ) :
    ((runOn disk.beside screen job).run t).run s =
      (StateT.run (m := StateM σ) (match (asked disk job t s).1.1 with
        | .error error => pure ([], .error error)
        | .ok contents =>
            match record job.tool contents with
            | (session, .error error) => pure (session.diagnostics.toList, .error error)
            | (session, .ok units) => do
                let files ← applyAll disk.beside screen job.mode session.store.toSets
                return (session.diagnostics.toList,
                  .ok ⟨job.tool, units, files, session.diagnostics.toList⟩))
        (asked disk job t s).1.2).run (asked disk job t s).2 :=
  rfl

/-- A run changes files all or nothing. It leaves all of them alone if it may not overwrite, and if it ends
with an error. Else a file is changed at most once, from the text that was analyzed to what the patches
make of it, and a set that fails changes nothing; also where several paths name one file. -/
theorem run_all_or_nothing (lawful : disk.Lawful view) (discreet : screen.Discreet view) (job : Job)
    (t : τ) (s : σ)
    (tells : ∀ contents, (asked disk job t s).1.1 = .ok contents →
      Tells contents.sources (record job.tool contents).1.store.toSets) :
    let ended := ((runOn disk.beside screen job).run t).run s
    let result : Except RunError Summary := ended.1.1.2
    (job.mode.overwrite = false → view ended.2 = view s) ∧
    (∀ error, result = .error error → view ended.2 = view s) ∧
    ∀ summary, result = .ok summary → ∃ contents t' s' session,
      asked disk job t s = ((.ok contents, t'), s') ∧ view s' = view s ∧
      record job.tool contents = (session, .ok summary.units) ∧
      Accounts disk screen view job.mode contents.sources session.store.toSets t' s' summary.files
        ended.2 := by
  obtain ⟨same, analyzed⟩ := contents_yields lawful job.root job.settings job.files t s
  change view (asked disk job t s).2 = view s at same
  change ∀ contents, (asked disk job t s).1.1 = .ok contents → _ at analyzed
  rw [runOn_asked]
  dsimp only
  generalize asked disk job t s = asks at same analyzed tells ⊢
  obtain ⟨⟨answer, t'⟩, s'⟩ := asks
  dsimp only at same analyzed tells ⊢
  cases answer with
  | error error => exact ⟨fun _ => same, fun _ _ => same, fun summary ended => by cases ended⟩
  | ok contents =>
      cases recordEq : record job.tool contents with
      | mk session recorded =>
      cases recorded with
      | error error =>
          simp only [recordEq]
          exact ⟨fun _ => same, fun _ _ => same, fun summary ended => by cases ended⟩
      | ok units =>
          simp only [recordEq]
          refine ⟨fun kept => ?_, fun error ended => (by cases ended), fun summary ended => ?_⟩
          · exact (applyAll_kept lawful discreet kept session.store.toSets t' s').1.trans same
          · obtain rfl := Except.ok.inj ended
            refine ⟨contents, t', s', session, rfl, same, recordEq, ?_⟩
            have tells := tells contents rfl
            have stored (set : PatchSet) (member : set ∈ (record job.tool contents).1.store.toSets) :=
              source_of_recorded member
            rw [recordEq] at tells stored
            exact applyAll_accounts lawful discreet job.mode t' s'
              (fun source member => same ▸ analyzed contents rfl source member) stored tells

/-- A statement that is removed from the only file of a project. -/
theorem run_all_or_nothing_removal :
    let disk := Tree.disk []
    let tree : Tree := ⟨[(["p", "a.cpp"], "using std::x;".toUTF8)], [], []⟩
    let job : Job := ⟨.inlineNamespaces, ⟨"/p"⟩, none, [], ⟨true, true, false⟩⟩
    let ended := ((runOn disk.beside (Screen.keeping (StateM Tree)) job).run "").run tree
    (∀ contents, (asked disk job "" tree).1.1 = .ok contents →
      Tells contents.sources (record job.tool contents).1.store.toSets) ∧
    ended.2.files = [(["p", "a.cpp"], ByteArray.empty)] ∧
    ∃ summary, ended.1.1.2 = .ok summary ∧ ∃ contents t' s' session,
      asked disk job "" tree = ((.ok contents, t'), s') ∧
      record job.tool contents = (session, .ok summary.units) ∧
      Accounts disk (Screen.keeping (StateM Tree)) (Tree.holdings []) job.mode contents.sources
        session.store.toSets t' s' summary.files ended.2 := by
  intro disk tree job ended
  have tells : ∀ contents, (asked disk job "" tree).1.1 = .ok contents →
      Tells contents.sources (record job.tool contents).1.store.toSets := by
    have checked : ((asked disk job "" tree).1.1.toOption.all fun contents =>
        decide (Tells contents.sources (record job.tool contents).1.store.toSets)) = true := by
      decide +kernel
    intro contents found
    rw [found] at checked
    exact of_decide_eq_true checked
  have succeeds : ended.1.1.2.toOption.isSome = true := by decide +kernel
  have ends := (run_all_or_nothing (Tree.disk_lawful []) (keeping_discreet _) job "" tree tells).2.2
  cases result : ended.1.1.2 with
  | error error =>
      rw [result] at succeeds
      cases succeeds
  | ok summary =>
      obtain ⟨contents, t', s', session, asks, -, records, accounts⟩ := ends summary result
      exact ⟨tells, by decide +kernel, summary, rfl, contents, t', s', session, asks, records, accounts⟩

end Requalify.Project
