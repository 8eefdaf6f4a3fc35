import Mathlib.Logic.Function.Basic
import Requalify.Tree

/-!
What a disk holds. A disk is followed through what paths name and what files contain: asking it changes
nothing, a write that fails changes nothing, and one that succeeds gives one file its new content.
-/

namespace Requalify

/-- The files of a disk. Several paths may name one file. -/
structure Holdings (File : Type) where
  named : FilePath → Option File
  content : File → ByteArray

def Holdings.put {File : Type} [DecidableEq File] (held : Holdings File) (file : File)
    (content : ByteArray) : Holdings File :=
  { held with content := Function.update held.content file content }

/-- The path names a file that holds the text. -/
def Holdings.Holds {File : Type} (held : Holdings File) (path : FilePath) (text : String) : Prop :=
  ∃ file, held.named path = some file ∧ held.content file = text.toUTF8

namespace Disk

variable {σ File : Type} [DecidableEq File]

/-- A disk with states in `σ` that hold the files of `view`. -/
structure Lawful (disk : Disk (StateM σ)) (view : σ → Holdings File) : Prop where
  isDirectory : ∀ path s, view ((disk.isDirectory path).run s).2 = view s
  isFile : ∀ path s, view ((disk.isFile path).run s).2 = view s
  filesBelow : ∀ path enters s, view ((disk.filesBelow path enters).run s).2 = view s
  read : ∀ path s, view ((disk.read path).run s).2 = view s
  read_ok : ∀ path s content, ((disk.read path).run s).1 = .ok content →
    ∃ file, (view s).named path = some file ∧ (view s).content file = content
  write_error : ∀ path content s cause, ((disk.write path content).run s).1 = .error cause →
    view ((disk.write path content).run s).2 = view s
  write_ok : ∀ path content s file, ((disk.write path content).run s).1 = .ok () →
    (view s).named path = some file →
      view ((disk.write path content).run s).2 = (view s).put file content

/-- Reads and failed writes leave no trace at all. -/
structure Traceless (disk : Disk (StateM σ)) : Prop where
  read : ∀ path s, ((disk.read path).run s).2 = s
  write_error : ∀ path content s cause, ((disk.write path content).run s).1 = .error cause →
    ((disk.write path content).run s).2 = s

end Disk

namespace Tree

/-- The files of a tree, as paths read from the directory at `current` name them. -/
def holdings (current : Place) (tree : Tree) : Holdings Place where
  named path :=
    match tree.find current path with
    | .ok place => if (tree.content? place).isSome then some place else none
    | .error _ => none
  content place := (tree.content? place).getD ByteArray.empty

section Put

variable {tree : Tree} {place : Place} (known : (tree.content? place).isSome) (content : ByteArray)

include known

theorem put_files : (tree.put place content).files =
    tree.files.map fun file => if file.1 = place then (place, content) else file := by
  rw [put, if_pos known]

/-- A new content moves no file. -/
theorem put_places : (tree.put place content).files.map (·.1) = tree.files.map (·.1) := by
  rw [put_files known, List.map_map]
  refine List.map_congr_left fun file _ => ?_
  by_cases same : file.1 = place <;> simp [same]

theorem put_content? (other : Place) : (tree.put place content).content? other =
    if other = place then some content else tree.content? other := by
  have sameName (file : Place × ByteArray) :
      (if file.1 = place then (place, content) else file).1 = file.1 := by
    split <;> simp [*]
  simp only [content?, put_files known, List.find?_map, Function.comp_def, sameName, Option.map_map]
  cases found : tree.files.find? (·.1 == other) with
  | none =>
      have different : other ≠ place := fun same => by simp [content?, ← same, found] at known
      simp [different]
  | some file =>
      obtain rfl : file.1 = other := by simpa using List.find?_some found
      by_cases same : file.1 = place <;> simp [same]

theorem put_content?_isSome (other : Place) :
    ((tree.put place content).content? other).isSome = (tree.content? other).isSome := by
  rw [put_content? known]
  split
  next same => rw [same, known]; rfl
  next => rfl

theorem put_holdsDirectory (other : Place) :
    (tree.put place content).holdsDirectory other = tree.holdsDirectory other := by
  have places (tree : Tree) : (tree.files.any fun file =>
      other.isPrefixOf file.1 && other.length < file.1.length) =
        (tree.files.map (·.1)).any fun name => other.isPrefixOf name && other.length < name.length := by
    rw [List.any_map]
    rfl
  have directories : (tree.put place content).directories = tree.directories := by
    rw [put, if_pos known]
  simp only [holdsDirectory, places, put_places known, directories]

theorem put_follow (start : Place) (pieces : List (List Char)) :
    (tree.put place content).follow start pieces = tree.follow start pieces := by
  induction pieces generalizing start with
  | nil => rfl
  | cons piece rest ih =>
      simp only [follow, put_holdsDirectory known, put_content?_isSome known, ih]

theorem put_find (current : Place) (path : FilePath) :
    (tree.put place content).find current path = tree.find current path := by
  simp only [find, put_follow known]

theorem holdings_put (current : Place) :
    (tree.put place content).holdings current = (tree.holdings current).put place content := by
  simp only [holdings, Holdings.put, put_find known, put_content?_isSome known, Holdings.mk.injEq,
    true_and]
  funext other
  rw [put_content? known, Function.update_apply]
  split <;> rfl

end Put

theorem disk_write_run (current : Place) (path : FilePath) (content : ByteArray) (tree : Tree) :
    ((disk current).write path content).run tree =
      match tree.write current path content with
      | .error cause => (.error cause, tree)
      | .ok next => (.ok (), next) := by
  simp only [disk]
  cases written : tree.write current path content <;> simp [written] <;> rfl

/-- A path that can be written to names the same place for reading. -/
theorem find_of_findWritable {tree : Tree} {current : Place} {path : FilePath} {place : Place}
    (found : tree.findWritable current path = .ok place) : tree.find current path = .ok place := by
  cases trailing : path.text.toList.reverse.head? == some '/' with
  | true =>
      -- A slash at the end is refused, whatever the rest names.
      simp only [findWritable, eq_of_beq trailing, if_true] at found
      dsimp only [bind, Except.bind] at found
      split at found <;> cases found
  | false =>
      simp only [findWritable, if_neg (ne_of_beq_false trailing)] at found
      cases named : tree.find current path with
      | error cause => rw [named] at found; cases found
      | ok other =>
          rw [named] at found
          dsimp only [bind, Except.bind] at found
          split at found
          next => cases found
          next =>
            split at found
            next => cases found
            next => exact found

/-- Trees are lawful disks. -/
theorem disk_lawful (current : Place) : (disk current).Lawful (holdings current) where
  isDirectory _ _ := rfl
  isFile _ _ := rfl
  filesBelow _ _ _ := rfl
  read _ _ := rfl
  read_ok path tree content isRead := by
    change tree.read current path = .ok content at isRead
    unfold read at isRead
    cases named : tree.find current path with
    | error cause => simp [named] at isRead
    | ok place =>
        cases known : tree.content? place with
        | none => simp [named, known] at isRead
        | some other =>
            simp only [named, known, Except.ok.injEq] at isRead
            exact ⟨place, by simp [holdings, named, known], by simp [holdings, known, isRead]⟩
  write_error path content tree cause refused := by
    simp only [disk_write_run] at refused ⊢
    split at refused
    next => rfl
    next => simp at refused
  write_ok path content tree place accepted isNamed := by
    simp only [disk_write_run] at accepted ⊢
    split at accepted
    next => simp at accepted
    next next written =>
      obtain ⟨other, found, rfl⟩ : ∃ other, tree.findWritable current path = .ok other ∧
          tree.put other content = next := by
        unfold write at written
        cases found : tree.findWritable current path with
        | error cause => simp [found, Except.map] at written
        | ok other => exact ⟨other, rfl, by simpa [found, Except.map] using written⟩
      have named := find_of_findWritable found
      simp only [holdings, named] at isNamed
      split at isNamed
      next known =>
        obtain rfl := Option.some.inj isNamed
        exact holdings_put known content current
      next => simp at isNamed

theorem disk_traceless (current : Place) : (disk current).Traceless where
  read _ _ := rfl
  write_error path content tree cause refused := by
    simp only [disk_write_run] at refused ⊢
    split at refused
    next => rfl
    next => simp at refused

end Tree

end Requalify
