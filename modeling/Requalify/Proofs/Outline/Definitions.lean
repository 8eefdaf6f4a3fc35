import Requalify.Catalog
import Requalify.Proofs.Outline.Laminar

/-!
The namespace definitions of a file and the scopes that they open. The names in front of a brace lead from
the path of the scope around it to the path of the new scope, one definition after the other.
-/

namespace Requalify

/-- From the global namespace the names lead to the path, each by one of the entries. -/
inductive Leads (entries : List NestedNamespace) : List String → NamespacePath → Prop
  | file : Leads entries [] NamespacePath.globalPath
  | inside {names : List String} {entry : NestedNamespace} (outer : Leads entries names entry.parent)
      (member : entry ∈ entries) : Leads entries (names ++ [entry.name]) entry.path

namespace Leads

variable {entries others : List NestedNamespace} {names : List String} {path other : NamespacePath}

theorem mono (fewer : entries ⊆ others) (leads : Leads entries names path) :
    Leads others names path := by
  induction leads with
  | file => exact .file
  | inside _ member ih => exact .inside ih (fewer member)

theorem definitions (opened : List (String × Bool)) (leads : Leads entries names path)
    (known : (Opening.definitions path opened).map Catalog.nestedOf ⊆ entries) :
    Leads entries (names ++ opened.map (·.1)) (Opening.pathWithin path opened) := by
  induction opened generalizing names path with
  | nil => simpa [Opening.pathWithin] using leads
  | cons entry rest ih =>
      obtain ⟨name, isInline⟩ := entry
      rw [Opening.definitions, List.map_cons, List.cons_subset] at known
      have first : Leads entries (names ++ [name]) (Opening.pathWithin path [(name, isInline)]) :=
        @Leads.inside entries names (Catalog.nestedOf ⟨path, name, isInline⟩) leads known.1
      simpa [Opening.pathWithin] using ih first known.2

/-- Where no name is defined in two ways, the names lead to one path at most. -/
theorem unique (left : Leads entries names path) (right : Leads entries names other)
    (same : ∀ entry ∈ entries, ∀ other ∈ entries, entry.name ∈ names → other.name = entry.name →
      other.parent = entry.parent → other.path = entry.path) : path = other := by
  induction left generalizing other with
  | file =>
      generalize isNil : ([] : List String) = names at right
      cases right with
      | file => rfl
      | inside => simp at isNil
  | @inside front entry outer member ih =>
      generalize namesEq : front ++ [entry.name] = names at right same
      cases right with
      | file => simp at namesEq
      | @inside front' entry' outer' member' =>
          obtain ⟨rfl, sameName⟩ := List.append_inj' namesEq rfl
          have name : entry.name = entry'.name := by simpa using sameName
          have parent : entry.parent = entry'.parent := by
            refine ih outer' fun first isFirst second isSecond inFront => ?_
            exact same first isFirst second isSecond (List.mem_append_left _ inFront)
          exact same entry' member' entry member (by simp) name parent

end Leads

namespace Draft

variable (draft : Draft)

section Definitions

@[simp]
theorem declare_namespaces (name : NameToken) (kind : DeclarationKind) :
    (draft.declare name kind).namespaces = draft.namespaces := by
  unfold declare
  dsimp only
  split_ifs <;> rfl

@[simp]
theorem declareSingle_namespaces (chain : NameChain) (kind : DeclarationKind) :
    (if chain.isSingle then draft.declare chain.last kind else draft).namespaces =
      draft.namespaces := by
  split <;> simp

@[simp]
theorem declareEnumerator_namespaces (name : NameToken) :
    (draft.declareEnumerator name).namespaces = draft.namespaces := by
  unfold declareEnumerator
  dsimp only
  split
  next => split <;> rfl
  next => rfl

@[simp]
theorem declareVariable_namespaces (name : NameToken) (rest : List Token) :
    (draft.declareVariable name rest).namespaces = draft.namespaces := by
  unfold declareVariable
  dsimp only
  split_ifs <;> simp

@[simp]
theorem readName_namespaces (before : List Token) (chain : NameChain) (rest : List Token) :
    (draft.readName before chain rest).namespaces = draft.namespaces := by
  unfold readName
  split_ifs <;> simp [mention]

@[simp]
theorem endStatement_namespaces (before : List Token) :
    (draft.endStatement before).namespaces = draft.namespaces := by
  unfold endStatement
  dsimp only
  split_ifs
  · split
    next => unfold finishTypedef; split <;> simp
    next => rfl
  · rfl

@[simp]
theorem closeScope_namespaces (brace : Token) :
    (draft.closeScope brace).namespaces = draft.namespaces := by
  unfold closeScope
  split <;> rfl

theorem openScope_namespaces (brace : Token) (afterName : Bool) :
    (draft.openScope brace afterName).namespaces =
      (draft.defineNamespaces draft.opening).namespaces := by
  simp only [openScope, bindParked]
  split <;> rfl

variable (before rest : List Token)

theorem stepName_namespaces (token : Token) :
    (draft.stepName before token rest).1.namespaces = draft.namespaces := by
  unfold stepName
  split
  next => rfl
  next => split <;> simp

theorem stepNamespace_namespaces (keyword : Token) :
    (draft.stepNamespace before keyword rest).1.namespaces = draft.namespaces := by
  unfold stepNamespace
  dsimp only
  split
  next => rfl
  next => split <;> (try split_ifs) <;> rfl

theorem stepUsing_namespaces (keyword : Token) :
    (draft.stepUsing keyword rest).1.namespaces = draft.namespaces := by
  unfold stepUsing
  split
  next => rfl
  next =>
    split_ifs
    next => split <;> rfl
    next => simp
    next => rfl
    all_goals
      dsimp only
      split
      next => split_ifs <;> rfl
      next => rfl

theorem stepRecord_namespaces : (draft.stepRecord before rest).1.namespaces = draft.namespaces := by
  unfold stepRecord
  dsimp only
  split
  next => split_ifs <;> rfl
  next => split_ifs <;> simp [mention]

theorem stepEnumeration_namespaces : (draft.stepEnumeration rest).1.namespaces = draft.namespaces := by
  unfold stepEnumeration
  dsimp only
  generalize Token.attributesLength _ _ = lead
  cases NameChain.read? (rest.drop lead) with
  | none => split_ifs <;> rfl
  | some name => split_ifs <;> simp [mention]

theorem stepKeyword_namespaces (token : Token) :
    (draft.stepKeyword before token rest).1.namespaces = draft.namespaces := by
  unfold stepKeyword
  split
  next => exact draft.stepNamespace_namespaces before rest token
  next => exact draft.stepUsing_namespaces rest token
  next => unfold stepTemplate; split <;> rfl
  all_goals first
    | exact draft.stepRecord_namespaces before rest
    | exact draft.stepEnumeration_namespaces rest
    | rfl
    | (split_ifs <;> rfl)

theorem stepPunctuator_namespaces {token : Token} (other : token.text ≠ "\x7b") :
    (draft.stepPunctuator before token rest).1.namespaces = draft.namespaces := by
  unfold stepPunctuator
  split
  next text => exact absurd text other
  next => simp
  next => simp
  all_goals first
    | rfl
    | skip
  split
  next => split_ifs <;> rfl
  next => rfl

/-- Definitions come in at opening braces alone. -/
theorem step_namespaces {token : Token} (other : token.opensBrace = false) :
    (draft.step before token rest).1.namespaces = draft.namespaces := by
  unfold step
  split
  next => exact draft.stepKeyword_namespaces before rest token
  next => exact draft.stepName_namespaces before rest token
  next => exact draft.stepName_namespaces before rest token
  next kind =>
    refine draft.stepPunctuator_namespaces before rest ?_
    simpa [Token.opensBrace, Token.isPunctuator, kind] using other
  next => rfl
  next => rfl

end Definitions

/-- The names that an opening brace adds to those around it. -/
def openingNames (draft : Draft) : List String :=
  match draft.opening with
  | some (.named names) => names.map (·.1)
  | _ => []

/-- The names of all scopes behind a token, from those of the scopes in front of it. -/
def spelling (draft : Draft) (known : List (List String)) (token : Token) : List (List String) :=
  if token.opensBrace then known ++ [known.getD draft.frame.scope [] ++ draft.openingNames] else known

/-- The names of all scopes behind the tokens. -/
def spellings (draft : Draft) (known : List (List String)) (before : List Token) :
    List Token → List (List String)
  | [] => known
  | token :: rest =>
      let names := draft.spelling known token
      let (draft, more) := draft.step before token rest
      draft.spellings names ((rest.take more).reverse ++ token :: before) (rest.drop more)
termination_by tokens => tokens.length
decreasing_by simp only [List.length_drop, List.length_cons]; omega

def entries (draft : Draft) : List NestedNamespace :=
  draft.namespaces.map Catalog.nestedOf

/-- Every scope has names, and they lead to its path. -/
structure Named (draft : Draft) (known : List (List String)) : Prop where
  count : known.length = draft.scopes.size
  leads : ∀ id < draft.scopes.size, Leads draft.entries (known.getD id []) (draft.finish.scope id).path
  frames : ∀ frame ∈ draft.frame :: draft.outer, frame.scope < draft.scopes.size ∧
    frame.path = (draft.finish.scope frame.scope).path

theorem start_named (size : Nat) : (Draft.start size).Named [[]] where
  count := rfl
  leads id bound := by
    obtain rfl : id = 0 := by simpa [start] using bound
    exact .file
  frames frame member := by
    obtain rfl := List.mem_singleton.mp member
    exact ⟨Nat.one_pos, rfl⟩

namespace Named

variable {draft : Draft} {known : List (List String)}

theorem stays {next : Draft} {taken : List Token} (named : draft.Named known)
    (stays : draft.Stays next taken) (namespaces : next.namespaces = draft.namespaces) :
    next.Named known := by
  obtain ⟨count, leads, frames⟩ := named
  have same := stays.skeleton
  simp only [skeleton, Prod.mk.injEq] at same
  obtain ⟨-, scopes, ⟨scope, -, path⟩, outer⟩ := same
  have scopeEq := scope_congr scopes
  refine ⟨scopes ▸ count, fun id bound => ?_, fun frame member => ?_⟩
  · rw [scopeEq, entries, namespaces]
    exact leads id (scopes ▸ bound)
  · rw [scopeEq, scopes]
    rw [outer] at member
    rcases List.mem_cons.mp member with rfl | isOuter
    · rw [scope, path]
      exact frames draft.frame List.mem_cons_self
    · exact frames frame (List.mem_cons_of_mem _ isOuter)

theorem openScope (named : draft.Named known) (brace : Token) (afterName : Bool) :
    (draft.openScope brace afterName).Named
      (known ++ [known.getD draft.frame.scope [] ++ draft.openingNames]) := by
  obtain ⟨count, leads, frames⟩ := named
  obtain ⟨bound, path⟩ := frames draft.frame List.mem_cons_self
  have same := draft.openScope_skeleton brace afterName
  have namespaces := draft.openScope_namespaces brace afterName
  generalize draft.openScope brace afterName = next at same namespaces ⊢
  simp only [skeleton, Prod.mk.injEq] at same
  obtain ⟨-, scopes, ⟨scope, -, newPath⟩, outer⟩ := same
  have scopeEq := scope_push scopes
  have fewer : draft.entries ⊆ next.entries := by
    rw [entries, entries, namespaces]
    unfold defineNamespaces
    split
    next => exact List.map_subset _ (List.subset_append_right _ _)
    next => exact List.Subset.refl _
    next => exact List.Subset.refl _
  have around := (leads draft.frame.scope bound).mono fewer
  rw [← path] at around
  have new : Leads next.entries (known.getD draft.frame.scope [] ++ draft.openingNames)
      (draft.pathOf draft.opening) := by
    unfold pathOf openingNames
    cases opening : draft.opening with
    | none => simpa using around
    | some opens =>
        cases opens with
        | named names =>
            refine around.definitions names ?_
            rw [entries, namespaces, opening]
            exact List.map_subset _ fun definition member =>
              List.mem_append_left _ (List.mem_reverse.mpr member)
        | _ => simpa using around
  have old {id : Nat} (inRange : id < draft.scopes.size) :
      next.finish.scope id = draft.finish.scope id := by
    rw [scopeEq, if_neg (Nat.ne_of_lt inRange)]
  have size : next.scopes.size = draft.scopes.size + 1 := by rw [scopes, Array.size_push]
  refine ⟨by simp [count, size], fun id inRange => ?_, fun frame member => ?_⟩
  · rw [size] at inRange
    rcases Nat.lt_succ_iff_lt_or_eq.mp inRange with before | rfl
    · rw [old before, List.getD_eq_getElem?_getD, List.getElem?_append_left (count ▸ before),
        ← List.getD_eq_getElem?_getD]
      exact (leads id before).mono fewer
    · rw [scopeEq, if_pos rfl, List.getD_eq_getElem?_getD, List.getElem?_append_right (by omega), count]
      simpa [newScope] using new
  · rw [outer] at member
    rcases List.mem_cons.mp member with rfl | isOuter
    · rw [scope, newPath, scopeEq, if_pos rfl, size]
      exact ⟨Nat.lt_succ_self _, rfl⟩
    · obtain ⟨inRange, framePath⟩ := frames frame isOuter
      rw [old inRange, size]
      exact ⟨Nat.lt_succ_of_lt inRange, framePath⟩

theorem closeScope (named : draft.Named known) (brace : Token) :
    (draft.closeScope brace).Named known := by
  cases outer : draft.outer with
  | nil =>
      rw [closeScope_of_nil outer]
      exact ⟨named.count, named.leads, named.frames⟩
  | cons around others =>
      obtain ⟨count, leads, frames⟩ := named
      have bound := (frames draft.frame List.mem_cons_self).1
      rw [closeScope_of_outer outer]
      generalize nextEq : ({ draft with
        scopes := draft.endScope brace, frame := around, outer := others, opening := none } : Draft) = next
      have scopes : next.scopes = draft.endScope brace := by rw [← nextEq]
      have size : next.scopes.size = draft.scopes.size := by rw [scopes, endScope, Array.size_modify]
      have path (id : Nat) : (next.finish.scope id).path = (draft.finish.scope id).path := by
        rw [scope_endScope bound scopes]
        split <;> rfl
      refine ⟨size ▸ count, fun id inRange => ?_, fun frame member => ?_⟩
      · rw [path]
        have same : next.entries = draft.entries := by rw [← nextEq]; rfl
        rw [same]
        exact leads id (size ▸ inRange)
      · have isOuter : frame ∈ draft.outer := by
          rw [← nextEq] at member
          exact outer ▸ member
        rw [path, size]
        exact frames frame (List.mem_cons_of_mem _ isOuter)

theorem step (named : draft.Named known) (before : List Token) (token : Token) (rest : List Token) :
    (draft.step before token rest).1.Named (draft.spelling known token) := by
  unfold spelling
  by_cases opens : token.opensBrace = true
  · rw [draft.step_of_opensBrace before rest opens, if_pos opens]
    exact named.openScope token _
  rw [if_neg opens]
  by_cases closes : token.closesBrace = true
  · rw [draft.step_of_closesBrace before rest closes]
    exact named.closeScope token
  · have other : token.isBrace = false := by simp [Token.isBrace, opens, closes]
    exact named.stays (draft.step_stays before rest other)
      (draft.step_namespaces before rest (by simpa using opens))

theorem readFrom {draft : Draft} {known : List (List String)} (named : draft.Named known)
    (before tokens : List Token) :
    (draft.readFrom before tokens).Named (draft.spellings known before tokens) := by
  fun_induction Draft.spellings draft known before tokens with
  | case1 => simpa [Draft.readFrom] using named
  | case2 draft known before token rest names next more stepEq ih =>
      have after := named.step before token rest
      rw [stepEq] at after
      rw [Draft.readFrom, stepEq]
      exact ih after

end Named

end Draft

namespace Outline

/-- For every scope of a text the names of the named namespaces that it lies in, inline ones included. -/
def spellings (text : String) : List (List String) :=
  (Draft.start (Text.byteLength text.toList)).spellings [[]] [] (tokenize text)

/-- The names that are written around and in front of a scope. -/
def spelling (text : String) (id : Nat) : List String :=
  (spellings text).getD id []

/-- The names of a scope lead to its path. -/
theorem leads_spelling (text : String) (id : Nat) :
    Leads ((ofText text).namespaces.map Catalog.nestedOf) (spelling text id)
      ((ofText text).scope id).path := by
  have named := (Draft.start_named (Text.byteLength text.toList)).readFrom [] (tokenize text)
  by_cases bound : id < (ofText text).scopes.size
  · refine (named.leads id bound).mono (List.map_subset _ fun definition member => ?_)
    exact List.mem_reverse.mpr member
  · have unnamed : spelling text id = [] := by
      have beyond : (spellings text).length ≤ id := named.count ▸ Nat.le_of_not_lt bound
      simp [spelling, beyond]
    have unscoped : (ofText text).scope id = default := by
      simp [scope, Nat.le_of_not_lt bound]
    rw [unnamed, unscoped]
    exact .file

end Outline

end Requalify
