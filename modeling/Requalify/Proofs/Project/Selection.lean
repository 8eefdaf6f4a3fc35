import Mathlib.Data.List.Chain
import Requalify.Project
import Requalify.Proofs.FilePath
import Requalify.Tree

/-!
The files that a run is asked to work on. They are put in the order of how they look from the root, and of
neighbours that name one entry the first is kept. So an entry is selected twice exactly when it is spelled in
two ways between which another entry stands.
-/

namespace Requalify

theorem Tree.isFile_run {tree : Tree} {current : Place} {path : FilePath}
    (isFile : tree.isFile current path = true) :
    ((disk current).isFile path).run tree = (true, tree) := by
  rw [← isFile]
  rfl

namespace Project

theorem dropRepeated_sublist (paths : List FilePath) : (dropRepeated paths).Sublist paths := by
  fun_induction dropRepeated paths with
  | case1 => exact .slnil
  | case2 path => exact .refl _
  | case3 first second rest same ih => exact ih.trans (.cons_cons _ (.cons _ (.refl _)))
  | case4 first second rest different ih => exact .cons_cons _ ih

theorem exists_mem_dropRepeated (paths : List FilePath) :
    ∀ path ∈ paths, ∃ found ∈ dropRepeated paths, found.SameEntry path := by
  fun_induction dropRepeated paths with
  | case1 => simp
  | case2 only => exact fun path member => ⟨path, member, rfl⟩
  | case3 first second rest same ih =>
      rw [List.forall_mem_cons] at ih ⊢
      obtain ⟨⟨found, kept, sameFirst⟩, others⟩ := ih
      refine ⟨⟨found, kept, sameFirst⟩, List.forall_mem_cons.mpr ⟨?_, others⟩⟩
      exact ⟨found, kept, Eq.trans sameFirst same⟩
  | case4 first second rest different ih =>
      refine List.forall_mem_cons.mpr ⟨⟨first, List.mem_cons_self, rfl⟩, fun path member => ?_⟩
      obtain ⟨found, kept, same⟩ := ih path member
      exact ⟨found, List.mem_cons_of_mem _ kept, same⟩

theorem head?_dropRepeated (first : FilePath) (rest : List FilePath) :
    (dropRepeated (first :: rest)).head? = some first := by
  generalize pathsEq : first :: rest = paths
  fun_induction dropRepeated paths generalizing rest with
  | case1 => cases pathsEq
  | case2 only => rw [(List.cons.inj pathsEq).1]; rfl
  | case3 left right others same ih =>
      obtain ⟨rfl, -⟩ := List.cons.inj pathsEq
      exact ih others rfl
  | case4 left right others different ih => rw [(List.cons.inj pathsEq).1]; rfl

/-- What is left has no two neighbours for one entry. -/
theorem isChain_dropRepeated (paths : List FilePath) :
    (dropRepeated paths).IsChain fun left right => ¬left.SameEntry right := by
  fun_induction dropRepeated paths with
  | case1 => exact .nil
  | case2 path => exact .singleton _
  | case3 first second rest same ih => exact ih
  | case4 first second rest different ih =>
      obtain ⟨others, parts⟩ := List.head?_eq_some_iff.mp (head?_dropRepeated second rest)
      rw [parts] at ih ⊢
      exact .cons_cons different ih

/-- Spellings of one entry have only that entry between them. -/
def Together (paths : List FilePath) : Prop :=
  ∀ first between last, [first, between, last].Sublist paths →
    first.SameEntry last → first.SameEntry between

/-- Dropping neighbours is enough exactly when the spellings of each entry stand together. -/
theorem pairwise_dropRepeated (paths : List FilePath) :
    (dropRepeated paths).Pairwise (fun left right => ¬left.SameEntry right) ↔ Together paths := by
  fun_induction dropRepeated paths with
  | case1 => simp [Together]
  | case2 path =>
      refine iff_of_true (List.pairwise_singleton _ _) fun first between last inPaths => ?_
      have short := inPaths.length_le
      simp at short
  | case3 first second rest same ih =>
      rw [ih]
      constructor
      · intro together left between right inPaths sameEnds
        cases inPaths with
        | cons _ inPaths =>
            cases inPaths with
            | cons _ inRest => exact together left between right (.cons _ inRest) sameEnds
            | cons_cons _ inRest =>
                have sameFirst := together first between right (.cons_cons _ inRest) (Eq.trans same sameEnds)
                exact Eq.trans (Eq.symm same) sameFirst
        | cons_cons _ inPaths =>
            cases inPaths with
            | cons _ inRest => exact together first between right (.cons_cons _ inRest) sameEnds
            | cons_cons _ inRest => exact same
      · intro together left between right inPaths sameEnds
        exact together left between right (inPaths.trans (.cons_cons _ (.cons _ (.refl _)))) sameEnds
  | case4 first second rest different ih =>
      rw [List.pairwise_cons, ih]
      constructor
      · rintro ⟨apart, together⟩ left between right inPaths sameEnds
        cases inPaths with
        | cons _ inPaths => exact together left between right inPaths sameEnds
        | cons_cons _ inPaths =>
            have member : right ∈ second :: rest := inPaths.subset (by simp)
            obtain ⟨found, kept, sameRight⟩ := exists_mem_dropRepeated _ right member
            exact absurd (Eq.trans sameEnds (Eq.symm sameRight)) (apart found kept)
      · intro together
        refine ⟨fun found kept sameFirst => ?_, fun left between right inPaths =>
          together left between right (.cons _ inPaths)⟩
        rcases List.mem_cons.mp ((dropRepeated_sublist _).subset kept) with rfl | later
        · exact different sameFirst
        · have inPaths : [first, second, found].Sublist (first :: second :: rest) :=
            .cons_cons _ (.cons_cons _ (List.singleton_sublist.mpr later))
          exact different (together first second found inPaths sameFirst)

section Order

variable {root : FilePath} {paths : List FilePath}

theorem ordered_pairwise : (ordered root paths).Pairwise fun left right =>
    left.relativeTo root ≤ right.relativeTo root := by
  rw [ordered]
  refine (List.pairwise_mergeSort ?_ ?_ paths).imp of_decide_eq_true
  · intro left middle right first second
    simp only [decide_eq_true_eq] at first second ⊢
    exact String.le_trans first second
  · intro left right
    simp only [Bool.or_eq_true, decide_eq_true_eq]
    exact String.le_total _ _

theorem mem_ordered {path : FilePath} : path ∈ ordered root paths ↔ path ∈ paths :=
  List.mem_mergeSort

/-- What stands strictly between two paths in the order stands between them in the list. -/
theorem sublist_ordered {first between last : FilePath} (isFirst : first ∈ paths) (isBetween : between ∈ paths)
    (isLast : last ∈ paths) (before : first.relativeTo root < between.relativeTo root)
    (behind : between.relativeTo root < last.relativeTo root) :
    [first, between, last].Sublist (ordered root paths) := by
  have isFirst : first ∈ ordered root paths := mem_ordered.mpr isFirst
  have isBetween : between ∈ ordered root paths := mem_ordered.mpr isBetween
  have isLast : last ∈ ordered root paths := mem_ordered.mpr isLast
  have sorted : (ordered root paths).Pairwise _ := ordered_pairwise
  obtain ⟨front, back, parts⟩ := List.append_of_mem isBetween
  rw [parts, List.mem_append, List.mem_cons] at isFirst isLast
  rw [parts, List.pairwise_append, List.pairwise_cons] at sorted
  obtain ⟨-, ⟨ahead, -⟩, across⟩ := sorted
  have inFront : first ∈ front := by
    rcases isFirst with inFront | rfl | inBack
    · exact inFront
    · exact absurd before (String.lt_irrefl _)
    · exact absurd before (String.not_lt.mpr (ahead first inBack))
  have inBack : last ∈ back := by
    rcases isLast with inFront | rfl | inBack
    · exact absurd behind (String.not_lt.mpr (across last inFront between List.mem_cons_self))
    · exact absurd behind (String.lt_irrefl _)
    · exact inBack
  rw [parts]
  exact (List.singleton_sublist.mpr inFront).append (.cons_cons _ (List.singleton_sublist.mpr inBack))

end Order

/-- The spellings of each entry stand together, when no other entry comes between them in the order. Spellings
that look the same from the root are of one entry, so ties are no trouble. -/
theorem together_ordered {root : FilePath} {asked : List FilePath} :
    Together (ordered root (asked.map root.join)) ↔
      ∀ first ∈ asked, ∀ between ∈ asked, ∀ last ∈ asked,
        (root.join first).SameEntry (root.join last) →
        (root.join first).relativeTo root < (root.join between).relativeTo root →
        (root.join between).relativeTo root < (root.join last).relativeTo root →
        (root.join first).SameEntry (root.join between) := by
  constructor
  · intro together first isFirst between isBetween last isLast sameEnds before behind
    exact together _ _ _ (sublist_ordered (List.mem_map_of_mem isFirst) (List.mem_map_of_mem isBetween)
      (List.mem_map_of_mem isLast) before behind) sameEnds
  · intro apart first between last inPaths sameEnds
    have sorted := ordered_pairwise.sublist inPaths
    simp only [List.pairwise_cons, List.mem_cons, List.not_mem_nil, or_false, forall_eq_or_imp, forall_eq]
      at sorted
    obtain ⟨⟨before, -⟩, behind, -⟩ := sorted
    have given (path : FilePath) (member : path ∈ [first, between, last]) :
        ∃ file ∈ asked, root.join file = path :=
      List.mem_map.mp (mem_ordered.mp (inPaths.subset member))
    obtain ⟨first, isFirst, rfl⟩ := given first (by simp)
    obtain ⟨between, isBetween, rfl⟩ := given between (by simp)
    obtain ⟨last, isLast, rfl⟩ := given last (by simp)
    by_cases tied : (root.join first).relativeTo root = (root.join between).relativeTo root
    · exact FilePath.sameEntry_of_relativeTo tied
    by_cases tied' : (root.join between).relativeTo root = (root.join last).relativeTo root
    · exact Eq.trans sameEnds (Eq.symm (FilePath.sameEntry_of_relativeTo tied'))
    exact apart first isFirst between isBetween last isLast sameEnds
      (String.not_le.mp fun back => tied (String.le_antisymm before back))
      (String.not_le.mp fun back => tied' (String.le_antisymm behind back))

section Asked

variable {σ α β : Type} {disk : Disk (StateM σ)} {state next : σ} {root : FilePath}

theorem run_bind_of_ok {action : ExceptT RunError (StateM σ) α} {value : α}
    (result : action.run.run state = (.ok value, next)) (after : α → ExceptT RunError (StateM σ) β) :
    (action >>= after).run.run state = (after value).run.run next := by
  rw [ExceptT.run_bind, StateT.run_bind, result]
  rfl

theorem locate_run {path : FilePath} (isFile : (disk.isFile (root.join path)).run state = (true, state)) :
    (locate disk root path).run.run state = (.ok (root.join path), state) := by
  have asks : (monadLift (disk.isFile (root.join path)) : ExceptT RunError (StateM σ) Bool).run.run state =
      (.ok true, state) := by
    change (Except.ok <$> disk.isFile (root.join path)).run state = _
    rw [StateT.run_map, isFile]
    rfl
  rw [locate, run_bind_of_ok asks]
  rfl

theorem mapM_locate_run {asked : List FilePath}
    (isFile : ∀ path ∈ asked, (disk.isFile (root.join path)).run state = (true, state)) :
    (asked.mapM (locate disk root)).run.run state = (.ok (asked.map root.join), state) := by
  induction asked with
  | nil => rfl
  | cons path rest ih =>
      obtain ⟨here, others⟩ := List.forall_mem_cons.mp isFile
      rw [List.mapM_cons, run_bind_of_ok (locate_run here), run_bind_of_ok (ih others)]
      rfl

theorem select_run {asked : List FilePath} (something : asked ≠ [])
    (isFile : ∀ path ∈ asked, (disk.isFile (root.join path)).run state = (true, state))
    (filter : FileFilter) : (select disk root asked filter).run.run state =
      (.ok (dropRepeated (ordered root (asked.map root.join))), state) := by
  rw [select, if_neg (by simp [something]), run_bind_of_ok (mapM_locate_run isFile)]
  rfl

end Asked

/-- Files that are asked for are selected in the order of how they look from the root, each of them and no
other, without neighbours for one entry. No entry is there twice exactly when no two of its spellings have
another entry between them. -/
theorem select_asked {σ : Type} {disk : Disk (StateM σ)} {state : σ} {root : FilePath}
    {asked : List FilePath} (something : asked ≠ [])
    (isFile : ∀ path ∈ asked, (disk.isFile (root.join path)).run state = (true, state))
    (filter : FileFilter) :
    ∃ paths, (select disk root asked filter).run.run state = (.ok paths, state) ∧
      paths.Pairwise (fun left right => left.relativeTo root ≤ right.relativeTo root) ∧
      (∀ path ∈ asked, ∃ found ∈ paths, found.SameEntry (root.join path)) ∧
      (∀ found ∈ paths, ∃ path ∈ asked, root.join path = found) ∧
      (paths.IsChain fun left right => ¬left.SameEntry right) ∧
      (paths.Pairwise (fun left right => ¬left.SameEntry right) ↔
        ∀ first ∈ asked, ∀ between ∈ asked, ∀ last ∈ asked,
          (root.join first).SameEntry (root.join last) →
          (root.join first).relativeTo root < (root.join between).relativeTo root →
          (root.join between).relativeTo root < (root.join last).relativeTo root →
          (root.join first).SameEntry (root.join between)) := by
  refine ⟨_, select_run something isFile filter, ?_, ?_, ?_, isChain_dropRepeated _,
    (pairwise_dropRepeated _).trans together_ordered⟩
  · exact ordered_pairwise.sublist (dropRepeated_sublist _)
  · intro path isAsked
    exact exists_mem_dropRepeated _ _ (mem_ordered.mpr (List.mem_map_of_mem isAsked))
  · intro found kept
    exact List.mem_map.mp (mem_ordered.mp ((dropRepeated_sublist _).subset kept))

/-- Two spellings next to each other are one file. -/
theorem select_asked_neighbours :
    ∃ paths, (select (Tree.disk []) ⟨"/p"⟩ [⟨"b.cpp"⟩, ⟨"a.cpp"⟩, ⟨"/p/b.cpp"⟩] ⟨[], []⟩).run.run
        ⟨[(["p", "a.cpp"], .empty), (["p", "b.cpp"], .empty)], [], []⟩ =
      (.ok paths, ⟨[(["p", "a.cpp"], .empty), (["p", "b.cpp"], .empty)], [], []⟩) ∧
      paths.Pairwise fun left right => ¬left.SameEntry right := by
  let tree : Tree := ⟨[(["p", "a.cpp"], .empty), (["p", "b.cpp"], .empty)], [], []⟩
  let asked : List FilePath := [⟨"b.cpp"⟩, ⟨"a.cpp"⟩, ⟨"/p/b.cpp"⟩]
  have areFiles : ∀ path ∈ asked, tree.isFile [] (FilePath.join ⟨"/p"⟩ path) = true := by decide +kernel
  have isFile := fun path isAsked => Tree.isFile_run (areFiles path isAsked)
  have something : asked ≠ [] := List.cons_ne_nil _ _
  obtain ⟨paths, selected, -, -, -, -, once⟩ := select_asked something isFile ⟨[], []⟩
  refine ⟨paths, selected, once.mpr ?_⟩
  decide +kernel

/-- A file that is spelled in two ways is selected twice, when another one comes between them. -/
theorem select_repeats :
    ¬∀ (tree : Tree) (root : FilePath) (asked : List FilePath) (filter : FileFilter), asked ≠ [] →
      (∀ path ∈ asked, tree.isFile [] (root.join path) = true) →
      ∃ paths, (select (Tree.disk []) root asked filter).run.run tree = (.ok paths, tree) ∧
        paths.Pairwise fun left right => ¬left.SameEntry right := by
  intro claim
  let tree : Tree := ⟨[(["p", "a", "a.cpp"], .empty), (["p", "a", "b.cpp"], .empty)], [], []⟩
  let asked : List FilePath := [⟨"a//b.cpp"⟩, ⟨"a/a.cpp"⟩, ⟨"a/b.cpp"⟩]
  have areFiles : ∀ path ∈ asked, tree.isFile [] (FilePath.join ⟨"/p"⟩ path) = true := by decide +kernel
  have isFile := fun path isAsked => Tree.isFile_run (areFiles path isAsked)
  obtain ⟨paths, selected, once⟩ := claim tree ⟨"/p"⟩ asked ⟨[], []⟩ (List.cons_ne_nil _ _) areFiles
  rw [select_run (List.cons_ne_nil _ _) isFile, Prod.mk.injEq, Except.ok.injEq] at selected
  rw [← selected.1, pairwise_dropRepeated, together_ordered] at once
  revert once
  decide +kernel

end Project

end Requalify
