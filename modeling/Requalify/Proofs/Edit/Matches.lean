import Requalify.Proofs.Edit.Landmark
import Requalify.Proofs.Lookup

/-!
All edits that a tool makes for one source. Each comes from one landmark of the file, so they are
pairwise compatible and cut no character.
-/

namespace Requalify

namespace Tool

/-- The edit that a tool makes at a landmark. -/
def editAt (tool : Tool) (policy : Policy) (source : Source) (environment : Environment) :
    Landmark → Option Edit
  | .mention mention =>
      match environment.resolve mention, tool with
      | .found item, inlineNamespaces =>
          if item.anonymous || item.declaration.path.isGlobal then none
          else Edit.ofReference policy source
            ⟨item.node, item.declaration, environment.outline.contextOf mention.scope⟩
      | .found item, disambiguateSymbols =>
          if item.anonymous && !environment.outline.isInAnonymous mention.scope then
            some (Edit.ofAnonymousReference source ⟨item.node, item.declaration⟩)
          else none
      | _, _ => none
  | .statement entry =>
      match tool with
      | inlineNamespaces => Edit.ofUsing policy source entry.statement
      | disambiguateSymbols => none
  | .keyword span =>
      match tool with
      | inlineNamespaces => none
      | disambiguateSymbols => some (Edit.ofAnonymousNamespace source span)

/-- The landmarks that a tool looks at, in the order of its edits. -/
def landmarks (outline : Outline) : Tool → List Landmark
  | inlineNamespaces => outline.mentions.map .mention ++ outline.usings.map .statement
  | disambiguateSymbols => outline.anonymousNamespaces.map .keyword ++ outline.mentions.map .mention

theorem edits_eq (tool : Tool) (policy : Policy) (source : Source) (environment : Environment) :
    (tool.edits policy source (Matches.ofEnvironment environment)).filterMap id =
      (tool.landmarks environment.outline).filterMap (tool.editAt policy source environment) := by
  cases tool
  -- Each tool asks for an edit at the mentions that resolve, and there for what was found only.
  all_goals
    simp only [edits, landmarks, Matches.ofEnvironment, List.filterMap_append, List.filterMap_map,
      List.filterMap_filterMap]
    congr 1
    congr 1
    funext mention
    cases resolution : environment.resolve mention with
    | bound => simp [editAt, resolution]
    | unresolved => simp [editAt, resolution]
    | found item =>
        simp only [Function.comp_apply, editAt, resolution, Option.bind_some]
        split
        next => rfl
        next => rfl

section Sources

variable {tool : Tool} {policy : Policy} {source : Source} {environment : Environment}

theorem editAt_belongs {print : Footprint} (within : print.tokens <:+ tokenize source.text)
    (valid : print.Valid) {edit : Edit}
    (asked : tool.editAt policy source environment print.landmark = some edit) :
    edit.patch.Belongs source.text.toList print := by
  have describes := valid.describes
  cases landmark : print.landmark with
  | mention mention =>
      rw [landmark] at asked describes
      cases resolution : environment.resolve mention with
      | bound => simp [editAt, resolution] at asked
      | unresolved => simp [editAt, resolution] at asked
      | found item =>
          have spells := Environment.resolve_spells resolution
          cases tool with
          | inlineNamespaces =>
              simp only [editAt, resolution] at asked
              split at asked
              next => simp at asked
              next => exact Edit.ofReference_belongs within describes spells asked
          | disambiguateSymbols =>
              simp only [editAt, resolution] at asked
              split at asked
              next =>
                obtain rfl := Option.some.inj asked
                exact Edit.ofAnonymousReference_belongs within describes spells
              next => simp at asked
  | statement entry =>
      rw [landmark] at asked describes
      cases tool with
      | inlineNamespaces => exact Edit.ofUsing_belongs within describes.2.1 describes.2.2.1 asked
      | disambiguateSymbols => simp [editAt] at asked
  | keyword span =>
      rw [landmark] at asked describes
      cases tool with
      | inlineNamespaces => simp [editAt] at asked
      | disambiguateSymbols =>
          obtain rfl := Option.some.inj asked
          obtain ⟨isFirst, next, others, behind, kind⟩ := describes
          exact Edit.ofAnonymousNamespace_belongs within isFirst behind kind

/-- The edits of two landmarks are compatible. -/
def Agree (tool : Tool) (policy : Policy) (source : Source) (environment : Environment)
    (left right : Landmark) : Prop :=
  ∀ edit, tool.editAt policy source environment left = some edit →
    ∀ other, tool.editAt policy source environment right = some other →
      edit.patch.Compatible other.patch

instance : Std.Symm (Agree tool policy source environment) :=
  ⟨fun _ _ agree edit asked other otherAsked => (agree other otherAsked edit asked).symm⟩

variable {log : List Footprint}

theorem landmarks_agree (trail : environment.outline.Trail (tokenize source.text) log) :
    (tool.landmarks environment.outline).Pairwise (Agree tool policy source environment) := by
  have agree : (log.map (·.landmark)).Pairwise (Agree tool policy source environment) := by
    apply List.pairwise_map.mpr
    refine trail.ordered.imp_of_mem ?_
    intro earlier later member laterMember follows edit asked other otherAsked
    have within := trail.within earlier member
    have laterWithin := trail.within later laterMember
    have valid := trail.valid later laterMember
    exact (editAt_belongs within (trail.valid earlier member) asked).compatible
      (editAt_belongs laterWithin valid otherAsked) within laterWithin valid follows
  have apart {left right : List Landmark} (leftSublist : left.Sublist (log.map (·.landmark)))
      (rightSublist : right.Sublist (log.map (·.landmark)))
      (different : ∀ one ∈ left, ∀ other ∈ right, one ≠ other) :
      (left ++ right).Pairwise (Agree tool policy source environment) := by
    refine List.pairwise_append.mpr
      ⟨agree.sublist leftSublist, agree.sublist rightSublist, fun one inLeft other inRight => ?_⟩
    exact agree.forall (leftSublist.subset inLeft) (rightSublist.subset inRight)
      (different one inLeft other inRight)
  cases tool with
  | inlineNamespaces => exact apart trail.mentions trail.statements (by simp)
  | disambiguateSymbols => exact apart trail.keywords trail.mentions (by simp)

theorem editAt_of_mem (trail : environment.outline.Trail (tokenize source.text) log) {edit : Edit}
    (member : edit ∈ (tool.landmarks environment.outline).filterMap
      (tool.editAt policy source environment)) : edit.patch.Fits source.text.toList := by
  obtain ⟨landmark, inLandmarks, asked⟩ := List.mem_filterMap.mp member
  have logged : landmark ∈ log.map (·.landmark) := by
    cases tool with
    | inlineNamespaces =>
        rcases List.mem_append.mp inLandmarks with inMentions | inStatements
        · exact trail.mentions.subset inMentions
        · exact trail.statements.subset inStatements
    | disambiguateSymbols =>
        rcases List.mem_append.mp inLandmarks with inKeywords | inMentions
        · exact trail.keywords.subset inKeywords
        · exact trail.mentions.subset inMentions
  obtain ⟨print, inLog, rfl⟩ := List.mem_map.mp logged
  exact (editAt_belongs (trail.within print inLog) (trail.valid print inLog) asked).fits

end Sources

/-- The edits of one source are compatible, and all of them cut no character of its text. -/
theorem edits_compatible (tool : Tool) (policy : Policy) (source : Source) (catalog : Catalog) :
    let environment := Environment.ofOutline (Outline.ofText source.text) catalog
    let edits := (tool.edits policy source (Matches.ofEnvironment environment)).filterMap id
    (edits.map (·.patch)).Pairwise Patch.Compatible ∧
      ∀ edit ∈ edits, edit.patch.Fits source.text.toList := by
  intro environment edits
  obtain ⟨log, trail⟩ := Outline.ofText_trail source.text
  rw [← Environment.ofOutline_outline (Outline.ofText source.text) catalog] at trail
  have editsEq : edits = _ := tool.edits_eq policy source environment
  rw [editsEq]
  refine ⟨?_, fun edit member => editAt_of_mem trail member⟩
  exact List.pairwise_map.mpr (List.pairwise_filterMap.mpr (landmarks_agree trail))

end Tool

end Requalify
