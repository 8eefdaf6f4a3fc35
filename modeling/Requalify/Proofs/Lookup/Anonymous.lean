import Requalify.Proofs.Lookup.Sight
import Requalify.Proofs.Lookup.Unfolded
import Requalify.Proofs.Outline.Paths

/-!
Names in an anonymous namespace. It has the path of the scope around it, so members of the file and members
that directives supply there are sought twice, first without the shared members of the namespace around it.
What the second search would find in front of them, imports and shared members, is thereby passed over.
-/

namespace Requalify

namespace Environment

variable (environment : Environment) (offset : Nat) (name : String)

/-- What using-declarations import in the first scopes of a list, up to the first namespace. -/
def importedOutwards : List Nat → Option Declaration
  | [] => none
  | level :: levels =>
      match environment.imported offset name level with
      | some declaration => some declaration
      | none =>
          if (environment.outline.scope level).kind.isNamespace then none else importedOutwards levels

/-- The member of a namespace that the shared files supply; an anonymous one has none. -/
def sharedMember? (level : Nat) : Option Declaration :=
  if (environment.outline.scope level).kind == .anonymous then none
  else environment.catalog.find? (environment.outline.scope level).path name

/-- What the directives in effect supply at the path of a scope. -/
def nominatedMember? (directives : List VisibleDirective) (level : Nat) : Option Found :=
  (directives.filter (·.placement == (environment.outline.scope level).path)).findSome? fun directive =>
    environment.qualified directive.nominated name

theorem memberAt_eq (directives : List VisibleDirective) (level : Nat) :
    environment.memberAt directives name (environment.outline.scope level) =
      (environment.fileMember (environment.outline.scope level).path name).or
        (((environment.sharedMember? name level).map (⟨·, false⟩)).or
          (environment.nominatedMember? name directives level)) := by
  rw [memberAt, sharedMember?]
  cases environment.fileMember (environment.outline.scope level).path name with
  | some found => rfl
  | none =>
      by_cases isAnonymous : ((environment.outline.scope level).kind == .anonymous) = true
      · simp [isAnonymous, nominatedMember?]
      · simp only [isAnonymous]
        cases environment.catalog.find? (environment.outline.scope level).path name <;> rfl

/-- The search ends at the first namespace if something is found up to there. -/
theorem findSome?_unqualifiedIn? {scope level : Nat} {levels : List Nat} {found : Found}
    (nearest : levels.find? (fun id => (environment.outline.scope id).kind.isNamespace) = some level)
    (here : ((environment.importedOutwards offset name levels).map (⟨·, false⟩)).or
      (environment.memberAt (environment.visibleDirectives scope offset) name
        (environment.outline.scope level)) = some found) :
    levels.findSome? (environment.unqualifiedIn? scope offset name) = some found := by
  induction levels with
  | nil => simp at nearest
  | cons first levels ih =>
      rw [List.findSome?_cons, unqualifiedIn?]
      rw [importedOutwards] at here
      cases isImported : environment.imported offset name first with
      | some declaration => simpa [isImported] using here
      | none =>
          rw [isImported] at here
          by_cases isNamespace : (environment.outline.scope first).kind.isNamespace = true
          · obtain rfl : first = level := by simpa [isNamespace] using nearest
            simp only [isNamespace, if_true, Option.map_none, Option.none_or] at here ⊢
            rw [here]
          · simp only [isNamespace] at here ⊢
            refine ih ?_ here
            simpa [isNamespace] using nearest

section Anonymous

variable {environment} {scope parent : Nat}
  (isAnonymous : (environment.outline.scope scope).kind = .anonymous)
  (bare : ∀ item ∈ environment.usings, item.entry.scope ≠ scope)
  (around : environment.outline.ancestors scope = scope :: environment.outline.ancestors parent)

include bare in
theorem usingsIn_of_bare (kind : UsingKind) : environment.usingsIn scope offset kind = [] := by
  refine List.filter_eq_nil_iff.mpr fun item member => ?_
  simp [bare item member]

include isAnonymous bare

theorem directivesAt_of_bare : environment.directivesAt offset scope = [] := by
  simp [directivesAt, usingsIn_of_bare offset bare, isAnonymous]

include around

theorem visibleDirectives_of_bare :
    environment.visibleDirectives scope offset = environment.visibleDirectives parent offset := by
  rw [visibleDirectives, visibleDirectives, around, List.flatMap_cons,
    directivesAt_of_bare offset isAnonymous bare, List.nil_append]

/-- The anonymous namespace is searched without imports and shared members, then the scopes around it. -/
theorem unqualified_of_bare :
    environment.unqualified scope offset name =
      ((environment.fileMember (environment.outline.scope scope).path name).or
        (environment.nominatedMember? name (environment.visibleDirectives parent offset) scope)).or
        (environment.unqualified parent offset name) := by
  have directives := visibleDirectives_of_bare offset isAnonymous bare around
  have levels : environment.unqualifiedIn? scope offset name = environment.unqualifiedIn? parent offset name := by
    funext level
    rw [unqualifiedIn?, unqualifiedIn?, directives]
  have isNamespace : (environment.outline.scope scope).kind.isNamespace = true := by
    rw [isAnonymous]
    rfl
  have unimported : environment.imported offset name scope = none := by
    simp [imported, usingsIn_of_bare offset bare]
  have unshared : environment.sharedMember? name scope = none := by
    simp [sharedMember?, isAnonymous]
  have here : environment.unqualifiedIn? parent offset name scope =
      (environment.fileMember (environment.outline.scope scope).path name).or
        (environment.nominatedMember? name (environment.visibleDirectives parent offset) scope) := by
    rw [unqualifiedIn?, unimported]
    dsimp only
    rw [if_pos isNamespace, memberAt_eq, unshared]
    rfl
  rw [unqualified_eq, around, List.findSome?_cons, levels, here, unqualified_eq]
  cases Option.or _ _ <;> rfl

/-- What the anonymous namespace finds first is what the scopes around it find as well. -/
theorem unqualified_of_bare_iff {level : Nat}
    (nearest : (environment.outline.ancestors parent).find?
      (fun id => (environment.outline.scope id).kind.isNamespace) = some level)
    (path : (environment.outline.scope level).path = (environment.outline.scope scope).path) :
    environment.unqualified scope offset name = environment.unqualified parent offset name ↔
      (∀ found ∈ environment.fileMember (environment.outline.scope scope).path name,
        ∀ declaration ∈ environment.importedOutwards offset name (environment.outline.ancestors parent),
          found = ⟨declaration, false⟩) ∧
      (environment.fileMember (environment.outline.scope scope).path name = none →
        ∀ found ∈ environment.nominatedMember? name (environment.visibleDirectives parent offset) scope,
        ∀ declaration ∈ (environment.importedOutwards offset name (environment.outline.ancestors parent)).or
          (environment.sharedMember? name level), found = ⟨declaration, false⟩) := by
  have outer (found : Found) := @findSome?_unqualifiedIn? environment offset name parent level _ found nearest
  have nominated : environment.nominatedMember? name (environment.visibleDirectives parent offset) level =
      environment.nominatedMember? name (environment.visibleDirectives parent offset) scope := by
    rw [nominatedMember?, nominatedMember?, path]
  rw [memberAt_eq, path, nominated, ← unqualified_eq] at outer
  rw [unqualified_of_bare offset name isAnonymous bare around]
  generalize environment.unqualified parent offset name = result at outer ⊢
  generalize environment.importedOutwards offset name _ = imported at outer ⊢
  generalize environment.sharedMember? name level = shared at outer ⊢
  generalize environment.nominatedMember? name _ scope = nominated at outer ⊢
  generalize environment.fileMember _ name = own at outer ⊢
  cases own with
  | some found =>
      cases imported with
      | none => simp [outer found rfl]
      | some declaration => simp [outer ⟨declaration, false⟩ rfl]
  | none =>
      cases nominated with
      | none => simp
      | some found =>
          cases imported with
          | some declaration => simp [outer ⟨declaration, false⟩ rfl]
          | none =>
              cases shared with
              | some declaration => simp [outer ⟨declaration, false⟩ rfl]
              | none => simp [outer found rfl]

end Anonymous

/-- A name means the same in an anonymous namespace without using-statements and around it, unless the search
of the anonymous namespace ends before an import or a shared member of the namespace around it is reached:
with a member of the file that an import hides outside, or with what a directive supplies. -/
theorem unqualified_anonymous_iff {text : String} (catalog : Catalog) {scope parent : Nat}
    (isAnonymous : ((Outline.ofText text).scope scope).kind = .anonymous)
    (isParent : ((Outline.ofText text).scope scope).parent = some parent)
    (bare : ∀ entry ∈ (Outline.ofText text).usings, entry.scope ≠ scope) (offset : Nat) (name : String) :
    let outline := Outline.ofText text
    let environment := ofOutline outline catalog
    let own := environment.fileMember (outline.scope scope).path name
    let nominated := environment.nominatedMember? name (environment.visibleDirectives parent offset) scope
    let imported := environment.importedOutwards offset name (outline.ancestors parent)
    let shared := environment.sharedMember? name (outline.namespaceOf parent)
    environment.unqualified scope offset name = environment.unqualified parent offset name ↔
      (∀ found ∈ own, ∀ declaration ∈ imported, found = ⟨declaration, false⟩) ∧
      (own = none → ∀ found ∈ nominated, ∀ declaration ∈ imported.or shared,
        found = ⟨declaration, false⟩) := by
  intro outline environment own nominated imported shared
  have same : environment.outline = outline := ofOutline_outline outline catalog
  have entries : environment.usings.map (·.entry) = outline.usings :=
    ofUsings_entries outline catalog outline.usings
  have bareItems : ∀ item ∈ environment.usings, item.entry.scope ≠ scope := fun item member =>
    bare item.entry (entries ▸ List.mem_map_of_mem member)
  have around : outline.ancestors scope = scope :: outline.ancestors parent :=
    Outline.ancestors_of_parent isParent (Outline.ofText_parentsFirst text scope parent isParent)
  obtain ⟨nearest, path⟩ := Outline.namespaceOf_spec text parent
  have pathScope : (outline.scope scope).path = (outline.scope parent).path :=
    Outline.path_of_parent isParent (by simp [isAnonymous])
  have exact := @unqualified_of_bare_iff environment offset name scope parent
  rw [same] at exact
  exact exact isAnonymous bareItems around nearest (path.trans pathScope.symm)

set_option maxRecDepth 100000 in
/-- No shared member stands in the way of what the directive supplies, here and around the namespace. -/
theorem unqualified_anonymous_iff_directive :
    let outline := Outline.ofText
      "namespace n \x7b int x; \x7d\nusing namespace n;\nnamespace \x7b int y = x; \x7d\n"
    let environment := ofOutline outline (Catalog.empty.add outline false)
    (outline.scope 2).kind = .anonymous ∧ (outline.scope 2).parent = some 0 ∧
      (∀ entry ∈ outline.usings, entry.scope ≠ 2) ∧
      environment.unqualified 0 62 "x" = some ⟨⟨"x", ⟨["n"]⟩, .variable⟩, false⟩ ∧
      environment.unqualified 2 62 "x" = environment.unqualified 0 62 "x" := by
  intro outline environment
  have facts : (outline.scope 2).kind = .anonymous ∧ (outline.scope 2).parent = some 0 ∧
      (∀ entry ∈ outline.usings, entry.scope ≠ 2) ∧
      environment.unqualified 0 62 "x" = some ⟨⟨"x", ⟨["n"]⟩, .variable⟩, false⟩ := by
    decide +kernel
  obtain ⟨isAnonymous, isParent, bare, found⟩ := facts
  refine ⟨isAnonymous, isParent, bare, found, ?_⟩
  refine (unqualified_anonymous_iff (Catalog.empty.add outline false) isAnonymous isParent bare 62 "x").mpr ?_
  decide +kernel

set_option maxRecDepth 100000 in
/-- The global `x` hides the one that the directive supplies, but not in the anonymous namespace. -/
theorem enclosing_member_missed :
    ¬∀ (text : String) (catalog : Catalog) (scope parent : Nat),
      let outline := Outline.ofText text
      let environment := ofOutline outline catalog
      (outline.scope scope).kind = .anonymous → (outline.scope scope).parent = some parent →
        (∀ entry ∈ outline.usings, entry.scope ≠ scope) →
        (∀ binding ∈ outline.bindings, binding.scope ≠ scope) → ∀ offset name,
          environment.unqualified scope offset name = environment.unqualified parent offset name := by
  intro claim
  let text := "namespace n \x7b int x; \x7d\nint x;\nusing namespace n;\nnamespace \x7b int y = x; \x7d\n"
  let outline := Outline.ofText text
  let catalog := Catalog.empty.add outline false
  have facts : ((outline.scope 2).kind = .anonymous ∧ (outline.scope 2).parent = some 0) ∧
      ((∀ entry ∈ outline.usings, entry.scope ≠ 2) ∧ ∀ binding ∈ outline.bindings, binding.scope ≠ 2) ∧
      (ofOutline outline catalog).unqualified 2 69 "x" = some ⟨⟨"x", ⟨["n"]⟩, .variable⟩, false⟩ ∧
      (ofOutline outline catalog).unqualified 0 69 "x" =
        some ⟨⟨"x", NamespacePath.globalPath, .variable⟩, false⟩ := by
    decide +kernel
  obtain ⟨⟨isAnonymous, isParent⟩, ⟨bare, unbound⟩, inside, outside⟩ := facts
  have same := claim text catalog 2 0 isAnonymous isParent bare unbound 69 "x"
  rw [inside, outside] at same
  simp [NamespacePath.globalPath] at same

end Environment

end Requalify
