import Requalify.Resolution

/-!
Lookup by full paths. Whatever lookup finds by any name is found again in its own namespace, so a
mention can be written with other names in front as long as these lead to that namespace from where it
stands.
-/

namespace Requalify

namespace Catalog

theorem member?_eq_some {catalog : Catalog} {owner : NamespacePath} {name : String}
    {declaration : Declaration} (found : catalog.member? owner name = some declaration) :
    declaration.name = name ∧ declaration.path = owner := by
  have matched := List.find?_some found
  simpa only [Bool.and_eq_true, beq_iff_eq] using matched

theorem member?_of_searchFrom {catalog : Catalog} {name : String} {unseen pending : List NamespacePath}
    {declaration : Declaration} (found : catalog.searchFrom name unseen pending = some declaration) :
    catalog.member? declaration.path name = some declaration := by
  fun_induction searchFrom catalog name unseen pending with
  | case1 => simp at found
  | case2 unseen owner pending _ first member =>
      obtain rfl := Option.some.inj found
      rw [(member?_eq_some member).2]
      exact member
  | case3 unseen owner pending _ _ ih => exact ih found
  | case4 unseen owner pending _ ih => exact ih found

theorem find?_of_member? {catalog : Catalog} {owner : NamespacePath} {name : String}
    {declaration : Declaration} (member : catalog.member? owner name = some declaration) :
    catalog.find? owner name = some declaration := by
  have reached : owner ∈ catalog.reachable owner := List.mem_cons_self
  rw [find?, searchFrom, if_pos reached, member]

end Catalog

namespace Environment

theorem ofOutline_outline (outline : Outline) (catalog : Catalog) :
    (ofOutline outline catalog).outline = outline := by
  have kept (entries : List ScopedUsing) (environment : Environment) :
      (entries.foldl addUsing environment).outline = environment.outline := by
    induction entries generalizing environment with
    | nil => rfl
    | cons entry rest ih => exact ih _
  exact kept outline.usings _

variable {environment : Environment}

/-- Lookup in the namespace of the declaration gives it, of whatever kind. -/
def FindsAtHome (environment : Environment) (declaration : Declaration) : Prop :=
  ∃ found, environment.member declaration.path declaration.name = some found ∧
    found.declaration.name = declaration.name ∧ found.declaration.path = declaration.path

theorem fileMember_eq_some {space : NamespacePath} {name : String} {found : Found}
    (member : environment.fileMember space name = some found) :
    found.declaration.name = name ∧ found.declaration.path = space := by
  obtain ⟨declared, _, chosen⟩ := List.exists_of_findSome?_eq_some member
  split at chosen
  next =>
    extract_lets owner at chosen
    split at chosen
    next =>
      obtain rfl := Option.some.inj chosen
      exact ⟨rfl, rfl⟩
    next => simp at chosen
  next => simp at chosen

theorem member_of_fileMember {space : NamespacePath} {name : String} {found : Found}
    (member : environment.fileMember space name = some found) :
    environment.member space name = some found := by
  rw [Environment.member, qualified, member]

/-- The name is declared in its namespace, in the file alone or in the catalog. -/
inductive Holds (environment : Environment) (declaration : Declaration) : Prop
  | inFile {found : Found}
      (member : environment.fileMember declaration.path declaration.name = some found)
  | inCatalog
      (member : environment.catalog.member? declaration.path declaration.name = some declaration)

theorem Holds.findsAtHome {declaration : Declaration} (holds : environment.Holds declaration) :
    environment.FindsAtHome declaration := by
  cases inFile : environment.fileMember declaration.path declaration.name with
  | some found => exact ⟨found, member_of_fileMember inFile, fileMember_eq_some inFile⟩
  | none =>
      cases holds with
      | inFile member => simp [inFile] at member
      | inCatalog member =>
          refine ⟨⟨declaration, false⟩, ?_, rfl, rfl⟩
          rw [Environment.member, qualified, inFile, Catalog.find?_of_member? member]
          rfl

theorem holds_of_fileMember {space : NamespacePath} {name : String} {found : Found}
    (member : environment.fileMember space name = some found) :
    found.declaration.name = name ∧ environment.Holds found.declaration := by
  obtain ⟨rfl, rfl⟩ := fileMember_eq_some member
  exact ⟨rfl, .inFile member⟩

theorem holds_of_find? {space : NamespacePath} {name : String} {declaration : Declaration}
    (located : environment.catalog.find? space name = some declaration) :
    declaration.name = name ∧ environment.Holds declaration := by
  have atHome := Catalog.member?_of_searchFrom located
  obtain ⟨rfl, -⟩ := Catalog.member?_eq_some atHome
  exact ⟨rfl, .inCatalog atHome⟩

theorem holds_of_qualified {space : NamespacePath} {name : String} {found : Found}
    (located : environment.qualified space name = some found) :
    found.declaration.name = name ∧ environment.Holds found.declaration := by
  unfold qualified at located
  split at located
  next other inFile =>
    obtain rfl := Option.some.inj located
    exact holds_of_fileMember inFile
  next =>
    obtain ⟨declaration, inCatalog, rfl⟩ := Option.map_eq_some_iff.mp located
    exact holds_of_find? inCatalog

/-- A name that is not declared in a namespace that is written is taken to belong there. -/
theorem member_cases {space : NamespacePath} {name : String} {found : Found}
    (located : environment.member space name = some found) :
    found.declaration.name = name ∧
      (environment.Holds found.declaration ∨ found.declaration.path = space) := by
  unfold Environment.member at located
  split at located
  next other isQualified =>
    obtain rfl := Option.some.inj located
    obtain ⟨same, holds⟩ := holds_of_qualified isQualified
    exact ⟨same, .inl holds⟩
  next =>
    split at located
    next => simp at located
    next =>
      obtain rfl := Option.some.inj located
      exact ⟨rfl, .inr rfl⟩

theorem findsAtHome_of_member {space : NamespacePath} {name : String} {found : Found}
    (located : environment.member space name = some found) :
    found.declaration.name = name ∧ environment.FindsAtHome found.declaration := by
  obtain ⟨rfl, holds | rfl⟩ := member_cases located
  · exact ⟨rfl, holds.findsAtHome⟩
  · exact ⟨rfl, found, located, rfl, rfl⟩

theorem holds_of_imported {offset level : Nat} {name : String} {declaration : Declaration}
    (located : environment.imported offset name level = some declaration) :
    declaration.name = name ∧ environment.Holds declaration := by
  obtain ⟨item, _, chosen⟩ := List.exists_of_findSome?_eq_some located
  obtain ⟨found, inSpace, rfl⟩ := Option.map_eq_some_iff.mp chosen
  obtain ⟨space, _, isQualified⟩ := Option.bind_eq_some_iff.mp inSpace
  exact holds_of_qualified isQualified

theorem holds_of_memberAt {directives : List VisibleDirective} {name : String} {scope : Scope}
    {found : Found} (located : environment.memberAt directives name scope = some found) :
    found.declaration.name = name ∧ environment.Holds found.declaration := by
  unfold memberAt at located
  split at located
  next other inFile =>
    obtain rfl := Option.some.inj located
    exact holds_of_fileMember inFile
  next =>
    dsimp only at located
    split at located
    next declaration inCatalog =>
      obtain rfl := Option.some.inj located
      split at inCatalog
      next => simp at inCatalog
      next => exact holds_of_find? inCatalog
    next =>
      obtain ⟨directive, _, isQualified⟩ := List.exists_of_findSome?_eq_some located
      exact holds_of_qualified isQualified

theorem holds_of_unqualified {scope offset : Nat} {name : String} {found : Found}
    (located : environment.unqualified scope offset name = some found) :
    found.declaration.name = name ∧ environment.Holds found.declaration := by
  obtain ⟨level, _, chosen⟩ := List.exists_of_findSome?_eq_some located
  split at chosen
  next declaration isImported =>
    obtain rfl := Option.some.inj chosen
    exact holds_of_imported isImported
  next =>
    extract_lets around at chosen
    split at chosen
    next => exact holds_of_memberAt chosen
    next => simp at chosen

/-- The namespace that the names of a mention lead to, what is read of them, and what is left. -/
def reading (environment : Environment) (mention : Mention) :
    Option NamespacePath × List Specifier × List (NameToken × Span) :=
  environment.walk mention.scope mention.chain.start
    (mention.chain.leading.map fun _ => NamespacePath.globalPath) [] mention.chain.qualifiers

/-- The names of a mention that are not namespaces, from the first on, without the last one. -/
def unread (environment : Environment) (mention : Mention) : List (NameToken × Span) :=
  (environment.reading mention).2.2

/-- The name that is looked up for a mention. -/
def sought (environment : Environment) (mention : Mention) : String :=
  (((environment.unread mention).head?.map (·.1)).getD mention.chain.last).text

/-- What lookup finds for a mention that is not bound. -/
def find? (environment : Environment) (mention : Mention) : Option Found :=
  match (environment.reading mention).1 with
  | none => environment.unqualified mention.scope mention.chain.start (environment.sought mention)
  | some space => environment.member space (environment.sought mention)

/-- The first name is bound in a record or block around the mention. -/
def bindsFirst (environment : Environment) (mention : Mention) : Bool :=
  mention.chain.leading.isNone && environment.isBound mention.scope mention.chain.first.text

theorem resolve_eq (environment : Environment) (mention : Mention) :
    environment.resolve mention =
      if environment.bindsFirst mention then .bound
      else match environment.find? mention with
        | none => .unresolved
        | some ⟨declaration, anonymous⟩ => .found ⟨declaration, anonymous,
            nodeOf mention (environment.reading mention).2.1 (environment.unread mention)
              declaration.kind⟩ := by
  rfl

theorem resolve_of_find? {mention : Mention} {found : Found}
    (free : environment.bindsFirst mention = false)
    (located : environment.find? mention = some found) :
    ∃ node, environment.resolve mention = .found ⟨found.declaration, found.anonymous, node⟩ := by
  rw [resolve_eq, free, located]
  exact ⟨_, rfl⟩

theorem find?_of_resolve {mention : Mention} {resolved : Resolved}
    (located : environment.resolve mention = .found resolved) :
    environment.find? mention = some ⟨resolved.declaration, resolved.anonymous⟩ := by
  rw [resolve_eq] at located
  split at located
  next => simp at located
  next =>
    split at located
    next => simp at located
    next declaration anonymous found =>
      obtain rfl := Resolution.found.inj located
      exact found

theorem findsAtHome_of_resolve {mention : Mention} {resolved : Resolved}
    (located : environment.resolve mention = .found resolved) :
    resolved.declaration.name = environment.sought mention ∧
      environment.FindsAtHome resolved.declaration := by
  have found := find?_of_resolve located
  unfold find? at found
  split at found
  next =>
    obtain ⟨same, holds⟩ := holds_of_unqualified found
    exact ⟨same, holds.findsAtHome⟩
  next => exact findsAtHome_of_member found

/-- The namespace that names lead to, each a namespace or an alias in the one before. -/
def descend (environment : Environment) (space : NamespacePath) (names : List String) :
    Option NamespacePath :=
  names.foldlM (fun space name => (environment.namespaceMember space name).map (·.1)) space

/-- The namespace that names lead to from a mention, behind its leading `::` if it has one. -/
def reach (environment : Environment) (mention : Mention) (names : List String) :
    Option NamespacePath :=
  match mention.chain.leading, names with
  | some _, names => environment.descend NamespacePath.globalPath names
  | none, [] => none
  | none, first :: rest =>
      (environment.findNamespace mention.scope mention.chain.start first).bind fun (space, _) =>
        environment.descend space rest

/-- The mention with other names in place of its namespaces. -/
def respelled (environment : Environment) (mention : Mention) (names : List (NameToken × Span)) :
    Mention :=
  { mention with
    chain := { mention.chain with qualifiers := names ++ environment.unread mention } }

/-- Lookup of the mention gives the declaration, of whatever kind. -/
def Means (environment : Environment) (mention : Mention) (declaration : Declaration) : Prop :=
  ∃ resolved, environment.resolve mention = .found resolved ∧
    resolved.declaration.name = declaration.name ∧ resolved.declaration.path = declaration.path

/-- Names that lead to a namespace are read up to the first that is no namespace there. -/
theorem walk_of_descend (scope offset : Nat) (passed : List Specifier) {space reached : NamespacePath}
    {names left : List (NameToken × Span)}
    (leads : environment.descend space (names.map (·.1.text)) = some reached)
    (stops : ∀ next ∈ left.head?, environment.namespaceMember reached next.1.text = none) :
    ∃ specifiers, environment.walk scope offset (some space) passed (names ++ left) =
      (some reached, specifiers, left) := by
  induction names generalizing space passed with
  | nil =>
      obtain rfl := Option.some.inj leads
      refine ⟨passed.reverse, ?_⟩
      cases left with
      | nil => rfl
      | cons next rest =>
          obtain ⟨name, separator⟩ := next
          rw [List.nil_append, walk]
          simp only [stops _ rfl]
  | cons first rest ih =>
      obtain ⟨name, separator⟩ := first
      obtain ⟨next, found, further⟩ := Option.bind_eq_some_iff.mp leads
      obtain ⟨⟨inner, kind⟩, isMember, rfl⟩ := Option.map_eq_some_iff.mp found
      obtain ⟨specifiers, same⟩ := ih (⟨name, separator, kind⟩ :: passed) further
      refine ⟨specifiers, ?_⟩
      rw [List.cons_append, walk]
      simp only [isMember]
      exact same

section Respelled

variable {mention : Mention} {names : List (NameToken × Span)}

theorem reading_respelled {space : NamespacePath}
    (leads : environment.reach (environment.respelled mention names) (names.map (·.1.text)) =
      some space)
    (plain : environment.namespaceMember space (environment.sought mention) = none) :
    ∃ specifiers, environment.reading (environment.respelled mention names) =
      (some space, specifiers, environment.unread mention) := by
  have stops : ∀ next ∈ (environment.unread mention).head?,
      environment.namespaceMember space next.1.text = none := by
    intro next isNext
    rw [sought, Option.mem_def.mp isNext] at plain
    exact plain
  rw [reading]
  unfold reach at leads
  split at leads
  next span _ absolute =>
    rw [absolute]
    exact walk_of_descend _ _ _ leads stops
  next => simp at leads
  next first rest relative spelled =>
    obtain ⟨⟨name, separator⟩, others, rfl, rfl, rfl⟩ := List.map_eq_cons_iff.mp spelled
    obtain ⟨⟨inner, kind⟩, isNamespace, further⟩ := Option.bind_eq_some_iff.mp leads
    obtain ⟨specifiers, same⟩ := walk_of_descend mention.scope
      (environment.respelled mention ((name, separator) :: others)).chain.start
      [⟨name, separator, kind⟩] further stops
    refine ⟨specifiers, ?_⟩
    rw [relative]
    change environment.walk _ _ none []
      ((name, separator) :: (others ++ environment.unread mention)) = _
    rw [walk]
    simp only [isNamespace]
    exact same

/-- A mention keeps its meaning under names that lead to the namespace of what it means. -/
theorem means_respelled {resolved : Resolved}
    (located : environment.resolve mention = .found resolved)
    (free : environment.bindsFirst (environment.respelled mention names) = false)
    (leads : environment.reach (environment.respelled mention names) (names.map (·.1.text)) =
      some resolved.declaration.path)
    (plain : environment.namespaceMember resolved.declaration.path resolved.declaration.name = none) :
    environment.Means (environment.respelled mention names) resolved.declaration := by
  obtain ⟨name, found, inHome, same⟩ := findsAtHome_of_resolve located
  rw [name] at plain inHome
  obtain ⟨specifiers, read⟩ := reading_respelled leads plain
  have located : environment.find? (environment.respelled mention names) = some found := by
    rw [find?, sought, unread, read]
    exact inHome
  obtain ⟨node, looked⟩ := resolve_of_find? free located
  exact ⟨_, looked, same⟩

/-- Behind a leading `::` a name that the global namespace does not know leads nowhere. -/
theorem resolve_respelled_of_unknown (absolute : mention.chain.leading.isSome = true)
    {first : NameToken × Span}
    (space : environment.namespaceMember NamespacePath.globalPath first.1.text = none)
    (member : environment.qualified NamespacePath.globalPath first.1.text = none) :
    environment.resolve (environment.respelled mention (first :: names)) = .unresolved := by
  obtain ⟨span, leading⟩ := Option.isSome_iff_exists.mp absolute
  obtain ⟨name, separator⟩ := first
  have read : environment.reading (environment.respelled mention ((name, separator) :: names)) =
      (some NamespacePath.globalPath, [],
        (name, separator) :: (names ++ environment.unread mention)) := by
    rw [reading]
    change environment.walk _ _ (mention.chain.leading.map fun _ => NamespacePath.globalPath) [] _ = _
    rw [leading]
    change environment.walk _ _ (some NamespacePath.globalPath) []
      ((name, separator) :: (names ++ environment.unread mention)) = _
    rw [walk]
    simp only [space]
    rfl
  have nothing : environment.find? (environment.respelled mention ((name, separator) :: names)) =
      none := by
    rw [find?, sought, unread, read]
    change environment.member NamespacePath.globalPath name.text = none
    rw [Environment.member, member]
    rfl
  have free : environment.bindsFirst (environment.respelled mention ((name, separator) :: names)) =
      false := by
    change (mention.chain.leading.isNone && _) = false
    rw [leading]
    rfl
  rw [resolve_eq, free, nothing]
  rfl

end Respelled

end Environment

end Requalify
