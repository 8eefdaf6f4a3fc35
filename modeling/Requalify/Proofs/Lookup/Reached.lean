import Mathlib.Data.List.Induction
import Requalify.Proofs.Lookup
import Requalify.Proofs.Lookup.Writable
import Requalify.Proofs.Outline.Definitions

/-!
The catalog of some files holds all that they declare, under the path of the scope around it. Names lead
from the global namespace to that path as long as none of them has been defined as inline before.
-/

namespace Requalify

namespace Catalog

variable {catalog : Catalog}

/-- The namespace that names lead to from the global one. -/
def descend? (catalog : Catalog) (names : List String) : Option NamespacePath :=
  names.foldlM catalog.child? NamespacePath.globalPath

/-- A nested namespace stands for the one around it or for itself. -/
def Nested (catalog : Catalog) : Prop :=
  ∀ entry ∈ catalog.namespaces, entry.path = entry.parent ∨ entry.path = entry.parent.child entry.name

/-- Of the names none is that of a namespace which is inline in one definition but not in another. -/
def Uniform (catalog : Catalog) (names : List String) : Prop :=
  ∀ entry ∈ catalog.namespaces, ∀ other ∈ catalog.namespaces, entry.name ∈ names →
    other.name = entry.name → other.parent = entry.parent → other.path = entry.path

theorem child?_cases (nested : catalog.Nested) {parent space : NamespacePath} {name : String}
    (found : catalog.child? parent name = some space) : space = parent ∨ space = parent.child name := by
  obtain ⟨entry, isFirst, rfl⟩ := Option.map_eq_some_iff.mp found
  have same : entry.name = name ∧ entry.parent = parent := by simpa using List.find?_some isFirst
  obtain ⟨rfl, rfl⟩ := same
  exact nested entry (List.mem_of_find?_eq_some isFirst)

theorem exists_child? {entry : NestedNamespace} (member : entry ∈ catalog.namespaces) :
    ∃ space, catalog.child? entry.parent entry.name = some space := by
  cases found : catalog.child? entry.parent entry.name with
  | some space => exact ⟨space, rfl⟩
  | none =>
      rw [child?, Option.map_eq_none_iff, List.find?_eq_none] at found
      simpa using found entry member

theorem exists_member? {declaration : Declaration} (member : declaration ∈ catalog.members) :
    ∃ first, catalog.member? declaration.path declaration.name = some first := by
  cases found : catalog.member? declaration.path declaration.name with
  | some first => exact ⟨first, rfl⟩
  | none =>
      rw [member?, List.find?_eq_none] at found
      simpa using found declaration member

theorem descend?_concat (names : List String) (name : String) :
    catalog.descend? (names ++ [name]) =
      (catalog.descend? names).bind fun space => catalog.child? space name := by
  simp [descend?, List.foldlM_append]

/-- An inline namespace takes its name out of the path. -/
theorem descend?_sublist (nested : catalog.Nested) {names : List String} {space : NamespacePath}
    (found : catalog.descend? names = some space) : space.segments.Sublist names := by
  induction names using List.reverseRecOn generalizing space with
  | nil =>
      obtain rfl := Option.some.inj found
      exact List.Sublist.refl _
  | append_singleton front name ih =>
      rw [descend?_concat] at found
      obtain ⟨parent, outer, inner⟩ := Option.bind_eq_some_iff.mp found
      rcases child?_cases nested inner with rfl | rfl
      · exact (ih outer).trans (List.sublist_append_left _ _)
      · exact (ih outer).append (List.Sublist.refl _)

/-- Names lead to the path that they spell unless one of them stands for the namespace around it. -/
theorem descend?_eq_some_iff (nested : catalog.Nested) {names : List String}
    (known : ∀ front name, front ++ [name] <+: names →
      ∃ space, catalog.child? ⟨front⟩ name = some space) :
    catalog.descend? names = some ⟨names⟩ ↔
      ∀ front name, front ++ [name] <+: names → catalog.child? ⟨front⟩ name ≠ some ⟨front⟩ := by
  induction names using List.reverseRecOn with
  | nil => simp [descend?, NamespacePath.globalPath]
  | append_singleton front name ih =>
      have shorter := ih fun first last isPrefix =>
        known first last (isPrefix.trans (List.prefix_append _ _))
      rw [descend?_concat]
      constructor
      · intro found first last isPrefix
        obtain ⟨parent, outer, inner⟩ := Option.bind_eq_some_iff.mp found
        have reached : parent = ⟨front⟩ := by
          rcases child?_cases nested inner with rfl | spelled
          · have fewer := (descend?_sublist nested outer).length_le
            rw [List.length_append, List.length_singleton] at fewer
            omega
          · have same : front ++ [name] = parent.segments ++ [name] :=
              congrArg NamespacePath.segments spelled
            exact NamespacePath.ext (List.append_cancel_right same).symm
        subst reached
        rcases List.prefix_concat_iff.mp isPrefix with whole | shorterPrefix
        · obtain ⟨rfl, sameName⟩ := List.append_inj' whole rfl
          obtain rfl : last = name := by simpa using sameName
          rw [inner]
          simp
        · exact shorter.mp outer first last shorterPrefix
      · intro plain
        have outer := shorter.mpr fun first last isPrefix =>
          plain first last (isPrefix.trans (List.prefix_append _ _))
        rw [outer, Option.bind_some]
        obtain ⟨space, found⟩ := known front name (List.prefix_refl _)
        rcases child?_cases nested found with rfl | rfl
        · exact absurd found (plain front name (List.prefix_refl _))
        · exact found

end Catalog

/-- Every name of a path that is led to is defined in the names before it. -/
theorem Leads.exists_entry {entries : List NestedNamespace} {names : List String} {path : NamespacePath}
    (leads : Leads entries names path)
    (nested : ∀ entry ∈ entries, entry.path = entry.parent ∨ entry.path = entry.parent.child entry.name)
    {front : List String} {name : String} (isPrefix : front ++ [name] <+: path.segments) :
    ∃ entry ∈ entries, entry.parent = ⟨front⟩ ∧ entry.name = name := by
  induction leads with
  | file => simp [NamespacePath.globalPath] at isPrefix
  | @inside names entry outer member ih =>
      rcases nested entry member with same | new
      · exact ih (same ▸ isPrefix)
      · rw [new] at isPrefix
        rcases List.prefix_concat_iff.mp isPrefix with whole | shorter
        · obtain ⟨parent, last⟩ := List.append_inj' whole rfl
          exact ⟨entry, member, NamespacePath.ext parent.symm, by simpa using last.symm⟩
        · exact ih shorter

namespace Catalog

theorem foldl_add_namespaces (files : List (String × Bool)) (catalog : Catalog) :
    (files.foldl (fun catalog (text, shares) => catalog.add (Outline.ofText text) shares)
      catalog).namespaces =
      catalog.namespaces ++ files.flatMap fun file => (Outline.ofText file.1).namespaces.map nestedOf := by
  induction files generalizing catalog with
  | nil => simp
  | cons file rest ih =>
      rw [List.foldl_cons, ih, List.flatMap_cons, ← List.append_assoc]
      rfl

theorem foldl_add_members (files : List (String × Bool)) (catalog : Catalog) :
    (files.foldl (fun catalog (text, shares) => catalog.add (Outline.ofText text) shares)
      catalog).members =
      catalog.members ++ files.flatMap fun file =>
        (Outline.ofText file.1).declarations.filterMap (memberOf? (Outline.ofText file.1)) := by
  induction files generalizing catalog with
  | nil => simp
  | cons file rest ih =>
      rw [List.foldl_cons, ih, List.flatMap_cons, ← List.append_assoc]
      rfl

theorem ofTexts_namespaces (files : List (String × Bool)) : (ofTexts files).namespaces =
    files.flatMap fun file => (Outline.ofText file.1).namespaces.map nestedOf :=
  foldl_add_namespaces files empty

theorem ofTexts_members (files : List (String × Bool)) : (ofTexts files).members =
    files.flatMap fun file =>
      (Outline.ofText file.1).declarations.filterMap (memberOf? (Outline.ofText file.1)) :=
  foldl_add_members files empty

theorem ofTexts_nested (files : List (String × Bool)) : (ofTexts files).Nested := by
  intro entry member
  rw [ofTexts_namespaces] at member
  obtain ⟨file, -, inFile⟩ := List.mem_flatMap.mp member
  obtain ⟨definition, -, rfl⟩ := List.mem_map.mp inFile
  cases inline : definition.isInline with
  | true => exact .inl (by simp [nestedOf, inline])
  | false => exact .inr (by simp [nestedOf, inline])

variable {files : List (String × Bool)} {file : String × Bool}

theorem leads_of_mem (member : file ∈ files) (id : Nat) :
    Leads (ofTexts files).namespaces (Outline.spelling file.1 id)
      ((Outline.ofText file.1).scope id).path := by
  refine (Outline.leads_spelling file.1 id).mono fun entry inFile => ?_
  rw [ofTexts_namespaces]
  exact List.mem_flatMap.mpr ⟨file, member, inFile⟩

theorem mem_members (member : file ∈ files) {declared : ScopedDeclaration}
    (isDeclared : declared ∈ (Outline.ofText file.1).declarations)
    (shared : (Outline.ofText file.1).isInAnonymous declared.scope = false) :
    ⟨declared.name, ((Outline.ofText file.1).scope declared.scope).path, declared.kind⟩ ∈
      (ofTexts files).members := by
  rw [ofTexts_members]
  refine List.mem_flatMap.mpr ⟨file, member, List.mem_filterMap.mpr ⟨declared, isDeclared, ?_⟩⟩
  simp [memberOf?, shared]

/-- Every declaration outside anonymous namespaces is found under its path, and names lead to that path
unless one of them was inline where it was first defined. Scopes with the same names have the same path
if no such name is inline in one definition but not in another. -/
theorem declared_found (files : List (String × Bool)) :
    (∀ file ∈ files, ∀ declared ∈ (Outline.ofText file.1).declarations,
      (Outline.ofText file.1).isInAnonymous declared.scope = false →
      let path := ((Outline.ofText file.1).scope declared.scope).path
      (∃ declaration, (ofTexts files).find? path declared.name = some declaration ∧
        declaration.name = declared.name ∧ declaration.path = path) ∧
      ((ofTexts files).descend? path.segments = some path ↔ ∀ front name,
        front ++ [name] <+: path.segments → (ofTexts files).child? ⟨front⟩ name ≠ some ⟨front⟩)) ∧
    ∀ left ∈ files, ∀ right ∈ files, ∀ leftId rightId,
      Outline.spelling left.1 leftId = Outline.spelling right.1 rightId →
      (ofTexts files).Uniform (Outline.spelling left.1 leftId) →
      ((Outline.ofText left.1).scope leftId).path = ((Outline.ofText right.1).scope rightId).path := by
  refine ⟨fun file member declared isDeclared shared => ⟨?_, ?_⟩, ?_⟩
  · obtain ⟨declaration, first⟩ := exists_member? (mem_members member isDeclared shared)
    exact ⟨declaration, find?_of_member? first, member?_eq_some first⟩
  · refine descend?_eq_some_iff (ofTexts_nested files) fun front name isPrefix => ?_
    obtain ⟨entry, isEntry, parent, rfl⟩ :=
      (leads_of_mem member declared.scope).exists_entry (ofTexts_nested files) isPrefix
    exact parent ▸ exists_child? isEntry
  · intro left isLeft right isRight leftId rightId same uniform
    have first := leads_of_mem isLeft leftId
    have second := leads_of_mem isRight rightId
    rw [← same] at second
    exact first.unique second uniform

set_option maxRecDepth 100000 in
theorem declared_found_inline :
    let first := "namespace n \x7b inline namespace v \x7b int x; \x7d \x7d"
    let second := "namespace n::inline v \x7b int y; \x7d"
    let catalog := ofTexts [(first, true), (second, false)]
    (∃ declaration, catalog.find? ⟨["n"]⟩ "y" = some declaration ∧ declaration.name = "y" ∧
      declaration.path = ⟨["n"]⟩) ∧
    catalog.descend? ["n"] = some ⟨["n"]⟩ ∧
    ((Outline.ofText first).scope 2).path = ((Outline.ofText second).scope 1).path := by
  intro first second catalog
  obtain ⟨found, same⟩ := declared_found [(first, true), (second, false)]
  obtain ⟨located, steps⟩ := found (second, false) (by simp) ⟨"y", .variable, 1, ⟨28, 29, by decide⟩⟩
    (by decide +kernel) (by decide +kernel)
  rw [show ((Outline.ofText second).scope 1).path = ⟨["n"]⟩ by decide +kernel] at located steps
  refine ⟨located, steps.mpr fun front name isPrefix => ?_, ?_⟩
  · cases front with
    | nil =>
        obtain rfl : name = "n" := by simpa using isPrefix
        decide +kernel
    | cons outer front => simp at isPrefix
  · exact same (first, true) (by simp) (second, false) (by simp) 2 1 (by decide +kernel)
      (by unfold Uniform; decide +kernel)

/-- Names lead from the global namespace to every declaration outside anonymous namespaces, which is found
there, and declarations in scopes with the same names have the same path. -/
def ReachesDeclared (files : List (String × Bool)) : Prop :=
  (∀ file ∈ files, ∀ declared ∈ (Outline.ofText file.1).declarations,
    (Outline.ofText file.1).isInAnonymous declared.scope = false →
    let path := ((Outline.ofText file.1).scope declared.scope).path
    (ofTexts files).descend? path.segments = some path ∧
      ∃ declaration, (ofTexts files).find? path declared.name = some declaration ∧
        declaration.name = declared.name ∧ declaration.path = path) ∧
  ∀ left ∈ files, ∀ right ∈ files, ∀ first ∈ (Outline.ofText left.1).declarations,
    ∀ second ∈ (Outline.ofText right.1).declarations,
    (Outline.ofText left.1).isInAnonymous first.scope = false →
    (Outline.ofText right.1).isInAnonymous second.scope = false →
    Outline.spelling left.1 first.scope = Outline.spelling right.1 second.scope →
    ((Outline.ofText left.1).scope first.scope).path = ((Outline.ofText right.1).scope second.scope).path

set_option maxRecDepth 100000 in
/-- The second definition belongs to the namespace of the first one, but `y` is kept under the path `v1`,
and `v1` stands for the global namespace. -/
theorem not_reachesDeclared_reopened : ¬ReachesDeclared
    [("inline namespace v1 \x7b int x; \x7d\nnamespace v1 \x7b int y; \x7d\n", false)] := by
  rintro ⟨steps, -⟩
  have reached := (steps _ (List.mem_singleton_self _) ⟨"y", .variable, 2, ⟨50, 51, by decide⟩⟩
    (by decide +kernel) (by decide +kernel)).1
  revert reached
  decide +kernel

end Catalog

end Requalify
