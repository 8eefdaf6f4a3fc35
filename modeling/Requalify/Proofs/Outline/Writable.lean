import Requalify.Outline.Reading
import Requalify.Proofs.Token.Names

/-!
The names of namespaces in an outline are identifiers of the file, so a qualifier can be written with
them.
-/

namespace Requalify

/-- A token that is an identifier has the text of a name. -/
def Token.Named (token : Token) : Prop :=
  token.isIdentifier = true → IsName token.text

theorem tokenize_named (text : String) : ∀ token ∈ tokenize text, token.Named := by
  intro token member isIdentifier
  obtain ⟨whole, parts, reads⟩ := Chunk.exists_reads true text.toList
  rw [Chunk.tokenize_of_reads parts reads] at member
  obtain ⟨front, chunk, back, rfl, kind, lexeme, -⟩ := Chunk.exists_chunk member
  rw [Token.kind_of_isIdentifier isIdentifier] at kind
  exact Chunk.isName_of_text kind lexeme (Chunk.reads_append.mp reads).2.1

/-- Each name of the path can be written. -/
def NamespacePath.Writable (path : NamespacePath) : Prop :=
  ∀ name ∈ path.segments, IsName name

theorem NamespacePath.globalPath_writable : globalPath.Writable := by
  simp [Writable, globalPath]

theorem NamespacePath.Writable.child {path : NamespacePath} (writable : path.Writable) {name : String}
    (isName : IsName name) : (path.child name).Writable :=
  List.forall_mem_append.mpr ⟨writable, by simpa using isName⟩

def NamespaceDefinition.Writable (definition : NamespaceDefinition) : Prop :=
  definition.parent.Writable ∧ IsName definition.name

namespace Opening

def Writable : Option Opening → Prop
  | some (.named names) => ∀ entry ∈ names, IsName entry.1
  | _ => True

variable {path : NamespacePath} (writable : path.Writable) {names : List (String × Bool)}
  (named : ∀ entry ∈ names, IsName entry.1)

include writable named

theorem pathWithin_writable : (pathWithin path names).Writable := by
  induction names generalizing path with
  | nil => exact writable
  | cons entry names ih =>
      obtain ⟨name, isInline⟩ := entry
      obtain ⟨isName, others⟩ := List.forall_mem_cons.mp named
      cases isInline with
      | true => exact ih writable others
      | false => exact ih (writable.child isName) others

theorem definitions_writable : ∀ definition ∈ definitions path names, definition.Writable := by
  induction names generalizing path with
  | nil => simp [definitions]
  | cons entry names ih =>
      obtain ⟨isName, others⟩ := List.forall_mem_cons.mp named
      refine List.forall_mem_cons.mpr ⟨⟨writable, isName⟩, ih (pathWithin_writable writable ?_) others⟩
      simpa using isName

end Opening

namespace Draft

def Writable (draft : Draft) : Prop :=
  (∀ scope ∈ draft.scopes, scope.path.Writable) ∧
    (∀ definition ∈ draft.namespaces, definition.Writable) ∧ draft.frame.path.Writable ∧
    (∀ frame ∈ draft.outer, frame.path.Writable) ∧ Opening.Writable draft.opening

theorem start_writable (size : Nat) : (Draft.start size).Writable := by
  simp [Writable, Opening.Writable, Draft.start, Frame.ofScope, NamespacePath.globalPath_writable]

namespace Writable

variable {draft : Draft} (writable : draft.Writable)

include writable

theorem setOpening {opening : Option Opening} (named : Opening.Writable opening) :
    Writable { draft with opening := opening } :=
  ⟨writable.1, writable.2.1, writable.2.2.1, writable.2.2.2.1, named⟩

theorem defineNamespaces : (draft.defineNamespaces draft.opening).Writable := by
  obtain ⟨scopes, namespaces, path, outer, opening⟩ := writable
  unfold Draft.defineNamespaces
  split
  next names same =>
    rw [same] at opening
    refine ⟨scopes, fun definition member => ?_, path, outer, same ▸ opening⟩
    rcases List.mem_append.mp member with new | known
    · exact Opening.definitions_writable path opening definition (List.mem_reverse.mp new)
    · exact namespaces definition known
  next => exact ⟨scopes, namespaces, path, outer, opening⟩
  next => exact ⟨scopes, namespaces, path, outer, opening⟩

theorem bindParked (id : Nat) (kind : ScopeKind) (afterName : Bool) :
    (draft.bindParked id kind afterName).Writable := by
  unfold Draft.bindParked
  split <;> exact writable

theorem pathOf : (draft.pathOf draft.opening).Writable := by
  obtain ⟨-, -, path, -, opening⟩ := writable
  unfold Draft.pathOf
  split
  next names same =>
    rw [same] at opening
    exact Opening.pathWithin_writable path opening
  next => exact path

theorem openScope (brace : Token) (afterName : Bool) : (draft.openScope brace afterName).Writable := by
  have newPath := writable.pathOf
  obtain ⟨scopes, namespaces, path, outer, -⟩ := writable.defineNamespaces.bindParked
    draft.scopes.size ((draft.opening.map Opening.kind).getD .block) afterName
  refine ⟨fun scope member => ?_, namespaces, newPath, List.forall_mem_cons.mpr ⟨path, outer⟩, trivial⟩
  rcases Array.mem_push.mp member with known | rfl
  · exact scopes scope known
  · exact newPath

theorem closeScope (brace : Token) : (draft.closeScope brace).Writable := by
  unfold Draft.closeScope
  split
  next => exact writable.setOpening trivial
  next around others same =>
    obtain ⟨scopes, namespaces, path, outer, -⟩ := writable
    rw [same] at outer
    obtain ⟨inner, outer⟩ := List.forall_mem_cons.mp outer
    refine ⟨fun scope member => ?_, namespaces, inner, outer, trivial⟩
    obtain ⟨index, bound, rfl⟩ := Array.mem_iff_getElem.mp member
    rw [Array.getElem_modify]
    have known := scopes _ (Array.getElem_mem (by simpa using bound))
    split
    next => exact known
    next => exact known

end Writable

theorem definitionNames_named {outerInline : Bool} {names : List (String × Bool)} {count : Nat}
    {tokens : List Token} (known : ∀ entry ∈ names, IsName entry.1)
    (named : ∀ token ∈ tokens, token.Named) :
    ∀ entry ∈ (definitionNames outerInline names count tokens).1, IsName entry.1 := by
  have reversed {names : List (String × Bool)} (known : ∀ entry ∈ names, IsName entry.1) :
      ∀ entry ∈ names.reverse, IsName entry.1 :=
    fun entry member => known entry (List.mem_reverse.mp member)
  have more {names : List (String × Bool)} (known : ∀ entry ∈ names, IsName entry.1) {token : Token}
      {tokens : List Token} (named : ∀ token ∈ tokens, token.Named) (member : token ∈ tokens)
      (isName : token.isIdentifier = true) (isInline : Bool) :
      ∀ entry ∈ (token.text, isInline) :: names, IsName entry.1 :=
    List.forall_mem_cons.mpr ⟨named token member isName, known⟩
  fun_induction definitionNames outerInline names count tokens with
  | case1 => exact reversed known
  | case2 names count keyword _ name isName _ separator others _ ih =>
      exact ih (more known named (by simp) isName true) fun token member => named token (by simp [member])
  | case3 names count keyword _ name isName => exact reversed (more known named (by simp) isName true)
  | case4 names count keyword _ name isName => exact reversed (more known named (by simp) isName true)
  | case5 => exact reversed known
  | case6 => exact reversed known
  | case7 names count name _ isName _ separator others _ ih =>
      exact ih (more known named (by simp) isName _) fun token member => named token (by simp [member])
  | case8 names count name _ isName => exact reversed (more known named (by simp) isName _)
  | case9 names count name _ isName => exact reversed (more known named (by simp) isName _)
  | case10 => exact reversed known

end Draft

end Requalify
