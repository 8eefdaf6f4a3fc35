import Mathlib.Data.List.Forall2
import Mathlib.Tactic.ByContra
import Requalify.Codebase
import Requalify.Proofs.Edit.Spelling
import Requalify.Proofs.Lookup
import Requalify.Proofs.Patch.Splice
import Requalify.Session

/-!
What names mean after their edits. The names that an edit leaves out have to come from the place of the
reference, and behind a leading `::` nothing supplies them: such a reference keeps its meaning only if
its enclosing namespace shares no name with the path of the declaration. So a run can change what a name
means.
-/

namespace Requalify

namespace Environment

/-- The whole path of the declaration is spelled, leads to its namespace and not beyond it, and the
global namespace knows none of its inner names. -/
structure KnowsByPath (environment : Environment) (policy : Policy) (declaration : Declaration) :
    Prop where
  shown : policy.visibleLength declaration.path declaration.name = declaration.path.length
  leads : environment.descend NamespacePath.globalPath declaration.path.segments =
    some declaration.path
  plain : environment.namespaceMember declaration.path declaration.name = none
  inner : ∀ name ∈ declaration.path.segments.tail,
    environment.namespaceMember NamespacePath.globalPath name = none ∧
      environment.qualified NamespacePath.globalPath name = none

end Environment

/-- Not excluded, and not in the global namespace, which has no name to spell. -/
def Policy.qualifies (policy : Policy) (declaration : Declaration) : Bool :=
  !declaration.path.isGlobal && !policy.excludesNamespace declaration.path &&
    !policy.excludesSymbol declaration.path declaration.name

/-- What was found and can be qualified is found again, by its name and namespace. -/
def Resolution.Keeps (policy : Policy) (before after : Resolution) : Prop :=
  match before, after with
  | .found old, .found new => policy.qualifies old.declaration = true →
      new.declaration.name = old.declaration.name ∧ new.declaration.path = old.declaration.path
  | .found old, _ => policy.qualifies old.declaration = false
  | _, _ => True

instance (policy : Policy) (before after : Resolution) : Decidable (before.Keeps policy after) :=
  match before, after with
  | .found _, .found _ => inferInstanceAs (Decidable (_ → _))
  | .found _, .bound => inferInstanceAs (Decidable (_ = _))
  | .found _, .unresolved => inferInstanceAs (Decidable (_ = _))
  | .bound, _ => inferInstanceAs (Decidable True)
  | .unresolved, _ => inferInstanceAs (Decidable True)

def Codebase.resolutions (codebase : Codebase) (source : Source) : List Resolution :=
  let environment := codebase.environment source
  environment.outline.mentions.map environment.resolve

/-- The source with the patches for its path applied, if they can be. -/
def Source.patched? (sets : List PatchSet) (source : Source) : Option Source :=
  match sets.find? (·.path.SameEntry source.path) with
  | none => some source
  | some set =>
      (Patch.splice source.text set.patches).toOption.map fun text => { source with text := text }

namespace Session

/-- The sources after a run of a tool over them, with its patches applied. -/
def rewritten? (tool : Tool) (policy : Policy) (headers headerExtensions : List String)
    (sources : List Source) : Option (List Source) :=
  let codebase := Codebase.ofSources headers headerExtensions sources
  let session := (run tool policy (fun source => .ok (codebase.analyze source)) sources).1
  sources.mapM (Source.patched? session.store.toSets)

/-- What a run makes of a single source. -/
theorem rewritten?_of_patches {tool : Tool} {policy : Policy} {source : Source}
    {patches : List Patch} {text : List Char}
    (recorded : ((run tool policy
        (fun source' => .ok ((Codebase.ofSources [] [] [source]).analyze source'))
        [source]).1.store.toSets.map fun set => (set.path, set.patches)) = [(source.path, patches)])
    (ascending : patches.Pairwise fun left right => left.offset < right.offset)
    (applied : Patch.spliceFrom source.text.toList none source.text.toList [] patches.reverse =
      .ok text) :
    rewritten? tool policy [] [] [source] = some [{ source with text := String.ofList text }] := by
  obtain ⟨set, sets, same⟩ := List.map_eq_singleton_iff.mp recorded
  obtain ⟨path, rfl⟩ := Prod.mk.inj same
  have spliced : Patch.splice source.text set.patches = .ok (String.ofList text) := by
    rw [Patch.splice, Patch.spliceChars, Patch.descending_of_ascending ascending, applied]
    rfl
  have found : set.path.SameEntry source.path := path ▸ rfl
  simp [rewritten?, sets, Source.patched?, found, spliced, Except.toOption]

/-- Every mention in the rewritten sources means what it meant before. -/
def PreservesMeaning (policy : Policy) (headers headerExtensions : List String)
    (sources : List Source) : Prop :=
  let before := Codebase.ofSources headers headerExtensions sources
  let session := (run .inlineNamespaces policy (fun source => .ok (before.analyze source)) sources).1
  ∃ rewritten ∈ sources.mapM (Source.patched? session.store.toSets),
    let after := Codebase.ofSources headers headerExtensions rewritten
    List.Forall₂ (fun source new => List.Forall₂ (Resolution.Keeps policy)
      (before.resolutions source) (after.resolutions new)) sources rewritten

instance (policy : Policy) (headers headerExtensions : List String) (sources : List Source) :
    Decidable (PreservesMeaning policy headers headerExtensions sources) :=
  inferInstanceAs (Decidable (∃ rewritten ∈ sources.mapM _, _))

end Session

end Requalify
