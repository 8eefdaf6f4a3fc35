import Requalify.ModuleName
import Requalify.Proofs.Edit.Matches
import Requalify.Proofs.Meaning
import Requalify.Proofs.Token.Names

/-!
What names mean after the anonymous namespaces of their file got a name. The edit of a use puts that name
in front of everything that is written, so the use keeps its meaning only if the name that is sought is the
first one written: behind the name of an outer namespace the new name stands in the wrong place.
-/

namespace Requalify

/-- The mention `new` is `old` with one more name in front, and without its leading separator. -/
structure Mention.PutBehind (new : Mention) (name : String) (old : Mention) : Prop where
  leading : new.chain.leading = none
  names : new.chain.qualifiers.map (·.1.text) = name :: old.chain.qualifiers.map (·.1.text)
  last : new.chain.last.text = old.chain.last.text

namespace Edit

open Chunk in
theorem startsAbsolute_eq {source : Source} {token : Token} (member : token ∈ tokenize source.text)
    (begins : token.isIdentifier = true ∨ token.isScope = true) :
    startsAbsolute source token.start = token.isScope := by
  obtain ⟨whole, parts, reads⟩ := exists_reads true source.text.toList
  rw [tokenize_of_reads parts reads] at member
  obtain ⟨front, chunk, back, rfl, kind, -, start⟩ := exists_chunk member
  have stands := (reads_append.mp reads).2.1
  have split : Text.splitAt? source.text.toList token.start =
      some (flatten front, chunk.text ++ flatten back) := by
    rw [start, Nat.zero_add, ← parts, flatten_append, flatten_cons]
    exact Text.splitAt?_append _ _
  rw [startsAbsolute, split]
  rcases begins with isName | isScope
  · have identifier := Token.kind_of_isIdentifier isName
    obtain ⟨_, c, rest⟩ := chunk
    obtain rfl := kind
    rw [identifier] at stands
    have first : Piece.isNameStart c = true := Piece.isNameStart_of_word (.inl rfl) stands
    have other : c ≠ ':' := by
      rintro rfl
      exact absurd first (by decide)
    rw [Token.not_isScope_of_isIdentifier isName]
    split
    next same => exact absurd (List.cons.inj (Prod.mk.inj (Option.some.inj same)).2).1 other
    next => rfl
  · rw [Token.kind_of_isScope isScope] at kind
    rw [eq_separator kind stands, isScope]
    rfl

end Edit

namespace NameChain

/-- A chain begins with a separator if and only if it has a leading one. -/
theorem Spelled.isScope_first {chain : NameChain} {front : List Token} {last : Token}
    (spelled : chain.Spelled front last) :
    ((front.head?.getD last).isIdentifier = true ∨ (front.head?.getD last).isScope = true) ∧
      (front.head?.getD last).isScope = chain.leading.isSome := by
  obtain ⟨⟨lead, pairs, final⟩, valid, rfl, rfl, rfl⟩ := spelled.layout
  cases lead with
  | some token =>
      have isScope := valid.lead token rfl
      exact ⟨.inr isScope, isScope⟩
  | none =>
      cases pairs with
      | nil => exact ⟨.inl valid.last, Token.not_isScope_of_isIdentifier valid.last⟩
      | cons pair pairs =>
          obtain ⟨isName, -⟩ := valid.pairs pair (by simp)
          exact ⟨.inl isName, Token.not_isScope_of_isIdentifier isName⟩

end NameChain

/-- A mention begins with its first token, which is a separator if and only if it has a leading one. -/
theorem Outline.exists_first {text : String} {mention : Mention}
    (inFile : mention ∈ (Outline.ofText text).mentions) :
    ∃ token ∈ tokenize text, mention.chain.start = token.start ∧
      (token.isIdentifier = true ∨ token.isScope = true) ∧
      token.isScope = mention.chain.leading.isSome := by
  obtain ⟨log, trail⟩ := Outline.ofText_trail text
  obtain ⟨print, inLog, landmark⟩ :=
    List.mem_map.mp (trail.mentions.subset (List.mem_map_of_mem inFile))
  have spelled : mention.chain.Spelled print.front print.last := by
    have describes := (trail.valid print inLog).describes
    rwa [landmark] at describes
  have first : print.first ∈ tokenize text := by
    obtain ⟨rest, tokens⟩ := print.tokens_eq_cons
    exact (trail.within print inLog).subset (tokens ▸ List.mem_cons_self)
  obtain ⟨begins, absolute⟩ := spelled.isScope_first
  exact ⟨print.first, first, Footprint.start_of_spelled spelled, begins, absolute⟩

namespace Environment

variable {source : Source} {catalog : Catalog} {mention : Mention} {resolved : Resolved}

/-- The edit of a use stands in front of its first token, and takes a leading `::` for its own. -/
theorem editAt_anonymous (policy : Policy)
    (inFile : mention ∈ (Outline.ofText source.text).mentions)
    (located : (Environment.ofOutline (Outline.ofText source.text) catalog).resolve mention =
      .found resolved)
    (anonymous : resolved.anonymous = true)
    (outside : (Outline.ofText source.text).isInAnonymous mention.scope = false) :
    let module := moduleName source.relativePath
    Tool.disambiguateSymbols.editAt policy source
        (Environment.ofOutline (Outline.ofText source.text) catalog) (.mention mention) =
      some ⟨Patch.insert mention.chain.start
        (if mention.chain.leading.isSome then module else module ++ NamespacePath.separator)
        Edit.qualifyLabel, mention.chain.start⟩ := by
  obtain ⟨first, known, place, begins, absolute⟩ := Outline.exists_first inFile
  have start : resolved.node.start = mention.chain.start := (resolve_spells located).start
  have isAbsolute : Edit.startsAbsolute source mention.chain.start = mention.chain.leading.isSome := by
    rw [place, Edit.startsAbsolute_eq known begins]
    exact absolute
  simp [Tool.editAt, located, anonymous, ofOutline_outline, outside, Edit.ofAnonymousReference, start,
    isAbsolute]

section Behind

variable {environment : Environment} {name : String} {new old : Mention}
  (behind : new.PutBehind name old)
  (plain : ∀ found ∈ environment.findNamespace new.scope new.chain.start name,
    environment.namespaceMember found.1 old.chain.first.text = none)

include behind plain

/-- The first of the old names is sought in the namespace of the new one; where there is none, the new
name itself is sought. -/
theorem reading_putBehind :
    let found := environment.findNamespace new.scope new.chain.start name
    (environment.reading new).1 = found.map (·.1) ∧
      environment.sought new = if found.isSome then old.chain.first.text else name := by
  obtain ⟨leading, names, last⟩ := behind
  obtain ⟨⟨module, separator⟩, others, qualifiers, rfl, texts⟩ := List.map_eq_cons_iff.mp names
  have first : old.chain.first.text = ((others.head?.map (·.1)).getD new.chain.last).text := by
    cases others with
    | nil =>
        have alone : old.chain.qualifiers = [] := by simpa using texts.symm
        simp [NameChain.first, alone, last]
    | cons other rest =>
        obtain ⟨pair, pairs, written, same, -⟩ := List.map_eq_cons_iff.mp texts.symm
        simp [NameChain.first, written, same]
  have stops (space : NamespacePath) (kind : SpecifierKind) (passed : List Specifier)
      (found : environment.findNamespace new.scope new.chain.start module.text = some (space, kind)) :
      environment.walk new.scope new.chain.start (some space) passed others =
        (some space, passed.reverse, others) := by
    have missing := plain _ found
    cases others with
    | nil => rfl
    | cons other rest =>
        rw [first] at missing
        rw [walk]
        simp only [show environment.namespaceMember space other.1.text = none from missing]
  rw [sought, unread, reading, leading, qualifiers, Option.map_none, walk, first]
  cases found : environment.findNamespace new.scope new.chain.start module.text with
  | none => exact ⟨rfl, rfl⟩
  | some item =>
      obtain ⟨space, kind⟩ := item
      simp only [stops space kind _ found]
      exact ⟨rfl, rfl⟩

/-- A use that means something of another name has that name in front of all others. -/
theorem first_of_means {declaration : Declaration} (means : environment.Means new declaration)
    (other : declaration.name ≠ name) : old.chain.first.text = declaration.name := by
  obtain ⟨resolved, located, sameName, -⟩ := means
  have isSought : declaration.name = environment.sought new :=
    sameName.symm.trans (findsAtHome_of_resolve located).1
  rw [(reading_putBehind behind plain).2] at isSought
  split at isSought
  next => exact isSought.symm
  next => exact absurd isSought other

/-- A use whose first name is the sought one means what its file has in the named namespace. -/
theorem means_putBehind {declaration : Declaration} {kind : SpecifierKind}
    (free : environment.isBound new.scope name = false)
    (found : environment.findNamespace new.scope new.chain.start name = some (declaration.path, kind))
    (first : old.chain.first.text = declaration.name) (home : environment.FindsAtHome declaration) :
    environment.Means new declaration := by
  obtain ⟨item, located, same⟩ := home
  obtain ⟨space, isSought⟩ := reading_putBehind behind plain
  rw [found] at space isSought
  have unbound : environment.bindsFirst new = false := by
    obtain ⟨-, names, -⟩ := behind
    obtain ⟨⟨module, separator⟩, others, qualifiers, rfl, -⟩ := List.map_eq_cons_iff.mp names
    have isModule : new.chain.first = module := by simp [NameChain.first, qualifiers]
    rw [bindsFirst, isModule, free, Bool.and_false]
  have looked : environment.find? new = some item := by
    rw [find?, space, isSought]
    simpa [first] using located
  obtain ⟨node, resolved⟩ := resolve_of_find? unbound looked
  exact ⟨_, resolved, same⟩

end Behind

end Environment

/-- A use of a member that stands directly in an anonymous namespace finds it in the named one. -/
def Resolution.Follows (module : String) (before after : Resolution) : Prop :=
  match before, after with
  | .found old, .found new => old.anonymous = true →
      new.declaration.name = old.declaration.name ∧
        new.declaration.path = old.declaration.path.child module
  | .found old, _ => old.anonymous = false
  | _, _ => True

instance (module : String) (before after : Resolution) : Decidable (before.Follows module after) :=
  match before, after with
  | .found _, .found _ => inferInstanceAs (Decidable (_ → _))
  | .found _, .bound => inferInstanceAs (Decidable (_ = _))
  | .found _, .unresolved => inferInstanceAs (Decidable (_ = _))
  | .bound, _ => inferInstanceAs (Decidable True)
  | .unresolved, _ => inferInstanceAs (Decidable True)

/-- The module names of the sources are identifiers that no source uses. -/
def FreshModuleNames (sources : List Source) : Prop :=
  ∀ source ∈ sources, moduleName source.relativePath ∉ keywords ∧
    ∀ other ∈ sources, ∀ token ∈ tokenize other.text, token.isIdentifier = true →
      token.text ≠ moduleName source.relativePath

instance (sources : List Source) : Decidable (FreshModuleNames sources) :=
  inferInstanceAs (Decidable (∀ source ∈ sources, _ ∧ ∀ other ∈ sources, _))

namespace Session

/-- Every use of a member of an anonymous namespace follows it into the named one. -/
def FollowsNames (policy : Policy) (headers headerExtensions : List String)
    (sources : List Source) : Prop :=
  ∃ rewritten ∈ rewritten? .disambiguateSymbols policy headers headerExtensions sources,
    let before := Codebase.ofSources headers headerExtensions sources
    let after := Codebase.ofSources headers headerExtensions rewritten
    List.Forall₂ (fun source new =>
      List.Forall₂ (Resolution.Follows (moduleName source.relativePath)) (before.resolutions source)
        (after.resolutions new)) sources rewritten

instance (policy : Policy) (headers headerExtensions : List String) (sources : List Source) :
    Decidable (FollowsNames policy headers headerExtensions sources) :=
  inferInstanceAs (Decidable (∃ rewritten ∈ rewritten? .disambiguateSymbols _ _ _ _, _))

end Session

end Requalify
