import Requalify.Proofs.Edit.Extent
import Requalify.Proofs.Edit.Qualified
import Requalify.Proofs.Outline.Nesting
import Requalify.Proofs.Outline.Stays
import Requalify.Proofs.Token.Inserted

/-!
Declared names are no mentions. A name token is taken by one step only, which either declares it or mentions
it; and the name of a type definition, which is known at its semicolon only, is taken back from the mentions
there. So no mention begins at a name that the outline declares or binds.
-/

namespace Requalify

/-- The last name of a chain is among the tokens that are taken with it. -/
theorem NameChain.last_of_taken {tokens : List Token} {chain : NameChain} {skip count : Nat}
    (found : read? (tokens.drop skip) = some chain) (inside : skip + chain.size ≤ count) :
    ∃ token ∈ tokens.take count, token.isIdentifier = true ∧ chain.last = token.name := by
  obtain ⟨front, last, behind, parts, spelled⟩ := read?_spelled found
  obtain ⟨layout, valid, -, -, rfl⟩ := spelled.layout
  have size := spelled.size
  refine ⟨layout.last, ?_, valid.last, spelled.name⟩
  refine List.mem_iff_getElem?.mpr ⟨skip + front.length, ?_⟩
  rw [List.getElem?_take_of_lt (by omega), ← List.getElem?_drop, parts]
  simp

namespace Draft

/-- The names that are declared, bound or parked, with the places of their tokens. -/
def names (draft : Draft) : List (String × Nat) :=
  draft.declarations.map (fun entry => (entry.name, entry.span.start)) ++
    draft.bindings.map (fun entry => (entry.name, entry.offset)) ++ draft.parked

/-- The names are name tokens among those passed, and no mention begins at one of them. -/
structure NamesApart (draft : Draft) (passed : List Token) : Prop where
  named : ∀ entry ∈ draft.names,
    ∃ token ∈ passed, token.isIdentifier = true ∧ entry = (token.text, token.start)
  placed : ∀ mention ∈ draft.mentions, ∃ token ∈ passed, mention.chain.start = token.start
  apart : ∀ mention ∈ draft.mentions, ∀ entry ∈ draft.names, mention.chain.start ≠ entry.2

/-- Nothing has been made of the tokens so far. -/
def Untouched (draft : Draft) (tokens : List Token) : Prop :=
  ∀ token ∈ tokens, (∀ mention ∈ draft.mentions, mention.chain.start ≠ token.start) ∧
    ∀ entry ∈ draft.names, token.start ≠ entry.2

theorem start_namesApart (size : Nat) : (Draft.start size).NamesApart [] where
  named entry member := by simp [names, Draft.start] at member
  placed mention member := by simp [Draft.start] at member
  apart mention member := by simp [Draft.start] at member

section Names

variable (draft : Draft)

theorem declare_mentions (name : NameToken) (kind : DeclarationKind) :
    (draft.declare name kind).mentions = draft.mentions := by
  unfold declare
  dsimp only
  split_ifs <;> rfl

theorem declare_names (name : NameToken) (kind : DeclarationKind) :
    (draft.declare name kind).names ⊆ (name.text, name.span.start) :: draft.names := by
  intro entry member
  unfold declare at member
  dsimp only at member
  split_ifs at member
  all_goals
    simp only [names, List.map_cons, List.cons_append, List.mem_append, List.mem_cons] at member ⊢
    tauto

theorem declareEnumerator_mentions (name : NameToken) :
    (draft.declareEnumerator name).mentions = draft.mentions := by
  unfold declareEnumerator
  dsimp only
  split
  next => split_ifs <;> rfl
  next => rfl

theorem declareEnumerator_names (name : NameToken) :
    (draft.declareEnumerator name).names ⊆ (name.text, name.span.start) :: draft.names := by
  intro entry member
  unfold declareEnumerator at member
  dsimp only at member
  split at member
  next =>
    split_ifs at member
    all_goals
      simp only [names, List.map_cons, List.cons_append, List.mem_append, List.mem_cons] at member ⊢
      tauto
  next => exact List.mem_cons_of_mem _ member

theorem declareVariable_mentions (name : NameToken) (rest : List Token) :
    (draft.declareVariable name rest).mentions = draft.mentions := by
  unfold declareVariable
  dsimp only
  split_ifs
  · rfl
  · exact draft.declare_mentions name .function
  · exact draft.declare_mentions name .variable

theorem declareVariable_names (name : NameToken) (rest : List Token) :
    (draft.declareVariable name rest).names ⊆ (name.text, name.span.start) :: draft.names := by
  unfold declareVariable
  dsimp only
  split_ifs
  · exact List.subset_cons_self _ _
  · exact draft.declare_names name .function
  · exact draft.declare_names name .variable

/-- Parameters that become bound keep their names and places; others are forgotten. -/
theorem bindParked_names (id : Nat) (kind : ScopeKind) (afterName : Bool) :
    (draft.bindParked id kind afterName).names ⊆ draft.names := by
  have bound : names { draft with
      bindings := draft.parked.map (fun entry => ⟨entry.1, id, entry.2⟩) ++ draft.bindings
      parked := [] } ⊆ draft.names := by
    intro entry member
    simp only [names, List.map_append, List.map_map, List.append_nil, List.mem_append] at member ⊢
    rcases member with declared | parked | binding
    · exact .inl (.inl declared)
    · obtain ⟨waiting, known, rfl⟩ := List.mem_map.mp parked
      exact .inr known
    · exact .inl (.inr binding)
  unfold bindParked
  split
  · exact List.Subset.refl _
  · exact bound
  · exact bound
  · intro entry member
    simp only [names, List.append_nil] at member
    exact List.mem_append_left _ member

theorem defineNamespaces_names (opening : Option Opening) :
    (draft.defineNamespaces opening).names = draft.names := by
  unfold defineNamespaces
  split <;> rfl

theorem openScope_names (brace : Token) (afterName : Bool) :
    (draft.openScope brace afterName).names ⊆ draft.names := by
  intro entry member
  rw [← draft.defineNamespaces_names draft.opening]
  exact bindParked_names _ _ _ _ member

theorem closeScope_names (brace : Token) :
    (draft.closeScope brace).names = draft.names ∧
      (draft.closeScope brace).mentions = draft.mentions := by
  unfold closeScope
  split
  next => exact ⟨rfl, rfl⟩
  next => exact ⟨rfl, rfl⟩

end Names

namespace NamesApart

variable {draft next : Draft} {passed : List Token}

theorem passOn {others : List Token} (known : draft.NamesApart passed) (more : passed ⊆ others) :
    draft.NamesApart others where
  named entry member := by
    obtain ⟨token, isPassed, place⟩ := known.named entry member
    exact ⟨token, more isPassed, place⟩
  placed mention member := by
    obtain ⟨token, isPassed, start⟩ := known.placed mention member
    exact ⟨token, more isPassed, start⟩
  apart := known.apart

theorem keep (known : draft.NamesApart passed) (names : next.names ⊆ draft.names)
    (mentions : next.mentions ⊆ draft.mentions) : next.NamesApart passed where
  named entry member := known.named entry (names member)
  placed mention member := known.placed mention (mentions member)
  apart mention member entry isName := known.apart mention (mentions member) entry (names isName)

/-- Names at which no mention begins may be declared. -/
theorem addNames (known : draft.NamesApart passed)
    (names : ∀ entry ∈ next.names, entry ∈ draft.names ∨
      ∃ token ∈ passed, token.isIdentifier = true ∧ entry = (token.text, token.start) ∧
        ∀ mention ∈ next.mentions, mention.chain.start ≠ token.start)
    (mentions : next.mentions ⊆ draft.mentions) : next.NamesApart passed where
  named entry member := by
    rcases names entry member with old | ⟨token, isPassed, isName, place, -⟩
    · exact known.named entry old
    · exact ⟨token, isPassed, isName, place⟩
  placed mention member := known.placed mention (mentions member)
  apart mention member entry isEntry := by
    rcases names entry isEntry with old | ⟨token, -, -, rfl, free⟩
    · exact known.apart mention (mentions member) entry old
    · exact free mention member

theorem addName (known : draft.NamesApart passed) {token : Token} (isPassed : token ∈ passed)
    (isName : token.isIdentifier = true)
    (free : ∀ mention ∈ next.mentions, mention.chain.start ≠ token.start)
    (names : next.names ⊆ (token.text, token.start) :: draft.names)
    (mentions : next.mentions ⊆ draft.mentions) : next.NamesApart passed := by
  refine known.addNames (fun entry member => ?_) mentions
  rcases List.mem_cons.mp (names member) with rfl | old
  · exact .inr ⟨token, isPassed, isName, rfl, free⟩
  · exact .inl old

theorem addMention (known : draft.NamesApart passed) {chain : NameChain} (lead : MentionLead)
    {token : Token} (isPassed : token ∈ passed) (start : chain.start = token.start)
    (free : ∀ entry ∈ draft.names, token.start ≠ entry.2) :
    (draft.mention chain lead).NamesApart passed where
  named := known.named
  placed mention member := by
    rcases List.mem_cons.mp member with rfl | old
    · exact ⟨token, isPassed, start⟩
    · exact known.placed mention old
  apart mention member entry isName := by
    rcases List.mem_cons.mp member with rfl | old
    · rw [start]
      exact free entry isName
    · exact known.apart mention old entry isName

end NamesApart

theorem typedefName?_mem {tokens : List Token} {token : Token}
    (found : typedefName? tokens = some token) :
    token ∈ tokens ∧ token.isIdentifier = true := by
  have pointer (tokens : List Token) (named : pointerName? tokens = some token) :
      token ∈ tokens ∧ token.isIdentifier = true := by
    fun_induction pointerName? tokens with
    | case1 first second name last rest isPointer =>
        obtain rfl := Option.some.inj named
        simp only [Bool.and_eq_true] at isPointer
        exact ⟨by simp, isPointer.1.2⟩
    | case2 first second name last rest notPointer ih =>
        obtain ⟨member, isName⟩ := ih named
        exact ⟨List.mem_cons_of_mem _ member, isName⟩
    | case3 => simp at named
  have outer (depth : Nat) (tokens : List Token) (named : outerName? depth tokens = some token) :
      token ∈ tokens ∧ token.isIdentifier = true := by
    fun_induction outerName? depth tokens with
    | case1 => simp at named
    | case4 depth first before notClosing notOpening isName =>
        obtain rfl := Option.some.inj named
        simp only [Bool.and_eq_true] at isName
        exact ⟨List.mem_cons_self, isName.2⟩
    | case2 depth first before closing ih | case3 depth first before notClosing opening ih
    | case5 depth first before notClosing notOpening other ih =>
        obtain ⟨member, isName⟩ := ih named
        exact ⟨List.mem_cons_of_mem _ member, isName⟩
  unfold typedefName? at found
  split at found
  · next name named =>
    obtain rfl := Option.some.inj found
    obtain ⟨member, isName⟩ := pointer _ named
    exact ⟨List.mem_reverse.mp member, isName⟩
  · exact outer 0 tokens found

/-- Parameters of a template are name tokens of its list. -/
theorem readTemplate_names (depth parens count : Nat) (parked : List (String × Nat))
    (before tokens : List Token) :
    let read := readTemplate depth parens count parked before tokens
    count ≤ read.2 ∧ ∀ entry ∈ read.1, entry ∈ parked ∨
      ∃ token ∈ tokens.take (read.2 - count),
        token.isIdentifier = true ∧ entry = (token.text, token.start) := by
  induction tokens generalizing depth parens count parked before with
  | nil => exact ⟨Nat.le_refl _, fun entry => .inl⟩
  | cons token rest ih =>
      have goOn (depth parens : Nat) {waiting : List (String × Nat)}
          (grown : ∀ entry ∈ waiting, entry ∈ parked ∨
            token.isIdentifier = true ∧ entry = (token.text, token.start)) :
          let read := readTemplate depth parens (count + 1) waiting (token :: before) rest
          count ≤ read.2 ∧ ∀ entry ∈ read.1, entry ∈ parked ∨
            ∃ name ∈ (token :: rest).take (read.2 - count),
              name.isIdentifier = true ∧ entry = (name.text, name.start) := by
        intro read
        obtain ⟨further, parks⟩ := ih depth parens (count + 1) waiting (token :: before)
        have further : count + 1 ≤ read.2 := further
        have size : read.2 - count = read.2 - (count + 1) + 1 := by omega
        refine ⟨by omega, fun entry member => ?_⟩
        rw [size, List.take_succ_cons]
        rcases parks entry member with waits | ⟨name, inList, isName, place⟩
        · rcases grown entry waits with old | ⟨isName, place⟩
          · exact .inl old
          · exact .inr ⟨token, List.mem_cons_self, isName, place⟩
        · exact .inr ⟨name, List.mem_cons_of_mem _ inList, isName, place⟩
      have same : ∀ entry ∈ parked, entry ∈ parked ∨
          token.isIdentifier = true ∧ entry = (token.text, token.start) := fun entry => .inl
      have ends : count ≤ count + 1 ∧ ∀ entry ∈ parked, entry ∈ parked ∨
          ∃ name ∈ (token :: rest).take (count + 1 - count),
            name.isIdentifier = true ∧ entry = (name.text, name.start) :=
        ⟨Nat.le_succ _, fun entry => .inl⟩
      simp only [readTemplate]
      split_ifs with opens closes deeper ends_ last stops isParameter
      · exact goOn _ _ same
      · exact goOn _ _ same
      · exact goOn _ _ same
      · exact ends
      · exact goOn _ _ same
      · exact ends
      · refine goOn _ _ fun entry member => ?_
        simp only [Bool.and_eq_true] at isParameter
        rcases List.mem_cons.mp member with rfl | old
        · exact .inr ⟨isParameter.1.2, rfl⟩
        · exact .inl old
      · exact goOn _ _ same

namespace NamesApart

variable {draft : Draft} {passed : List Token} (known : draft.NamesApart passed)

include known

theorem declare {name : Token} (isPassed : name ∈ passed) (isName : name.isIdentifier = true)
    (free : ∀ mention ∈ draft.mentions, mention.chain.start ≠ name.start) (kind : DeclarationKind) :
    (draft.declare name.name kind).NamesApart passed := by
  have mentions := draft.declare_mentions name.name kind
  exact known.addName isPassed isName (mentions ▸ free) (draft.declare_names name.name kind)
    (mentions ▸ List.Subset.refl _)

theorem setOpening (opening : Option Opening) : NamesApart { draft with opening := opening } passed :=
  known.keep (List.Subset.refl _) (List.Subset.refl _)

theorem setFrame (frame : Frame) : NamesApart { draft with frame := frame } passed :=
  known.keep (List.Subset.refl _) (List.Subset.refl _)

/-- The mention that the name of a type definition was taken for is dropped before it is declared. -/
theorem finishTypedef {tokens : List Token} (behind : tokens ⊆ passed) :
    (draft.finishTypedef tokens).NamesApart passed := by
  unfold Draft.finishTypedef
  split
  · exact known
  · next name found =>
    obtain ⟨member, isName⟩ := typedefName?_mem found
    have fewer : NamesApart { draft with
        mentions := draft.mentions.filter (·.chain.start != name.start) } passed :=
      known.keep (List.Subset.refl _) List.filter_sublist.subset
    refine fewer.declare (behind member) isName ?_ .typeAlias
    intro mention kept
    simpa using (List.mem_filter.mp kept).2

theorem endStatement {before : List Token} (behind : before ⊆ passed) :
    (draft.endStatement before).NamesApart passed := by
  have clear (draft : Draft) (known : draft.NamesApart passed) :
      NamesApart { draft with opening := none, parked := [] } passed := by
    refine known.keep (fun entry member => ?_) (List.Subset.refl _)
    simp only [names, List.append_nil] at member
    exact List.mem_append_left _ member
  simp only [Draft.endStatement]
  split
  · apply clear
    split
    · apply finishTypedef (known.setFrame _)
      intro token member
      exact behind ((List.takeWhile_sublist _).subset member)
    · exact known.setFrame _
  · exact known

theorem openScope (brace : Token) (afterName : Bool) :
    (draft.openScope brace afterName).NamesApart passed := by
  apply known.keep (draft.openScope_names brace afterName)
  rw [openScope_mentions]
  exact List.Subset.refl _

theorem closeScope (brace : Token) : (draft.closeScope brace).NamesApart passed := by
  obtain ⟨names, mentions⟩ := draft.closeScope_names brace
  exact known.keep (names ▸ List.Subset.refl _) (mentions ▸ List.Subset.refl _)

section Chains

variable {tokens : List Token} (untouched : draft.Untouched tokens) {skip count : Nat}
  (taken : tokens.take count ⊆ passed) {chain : NameChain}
  (found : NameChain.read? (tokens.drop skip) = some chain) (inside : skip + chain.size ≤ count)

include untouched taken found inside

omit known in
/-- The last name of a chain among the taken tokens is free to be declared. -/
theorem exists_last : ∃ name ∈ passed, name.isIdentifier = true ∧ chain.last = name.name ∧
    ∀ mention ∈ draft.mentions, mention.chain.start ≠ name.start := by
  obtain ⟨name, member, isName, last⟩ := NameChain.last_of_taken found inside
  exact ⟨name, taken member, isName, last, (untouched name (List.mem_of_mem_take member)).1⟩

theorem declareChain (kind : DeclarationKind) : (draft.declare chain.last kind).NamesApart passed := by
  obtain ⟨name, isPassed, isName, last, free⟩ := exists_last untouched taken found inside
  rw [last]
  exact known.declare isPassed isName free kind

theorem declareSingle (kind : DeclarationKind) :
    NamesApart (if chain.isSingle then draft.declare chain.last kind else draft) passed := by
  split
  · exact known.declareChain untouched taken found inside kind
  · exact known

theorem mention (lead : MentionLead) : (draft.mention chain lead).NamesApart passed := by
  have size := chain.size_pos
  have positive : skip < count := by omega
  obtain ⟨first, member, start⟩ := NameChain.start_of_taken found positive
  have free := (untouched first (List.mem_of_mem_take member)).2
  exact known.addMention lead (taken member) start free

theorem readName (before after : List Token) : (draft.readName before chain after).NamesApart passed := by
  obtain ⟨name, isPassed, isName, last, free⟩ := exists_last untouched taken found inside
  unfold Draft.readName
  split_ifs
  · have mentions := draft.declareEnumerator_mentions chain.last
    refine known.addName isPassed isName (mentions ▸ free) ?_ (mentions ▸ List.Subset.refl _)
    rw [last]
    exact draft.declareEnumerator_names name.name
  · exact known
  · have mentions := draft.declareVariable_mentions chain.last after
    refine known.addName isPassed isName (mentions ▸ free) ?_ (mentions ▸ List.Subset.refl _)
    rw [last]
    exact draft.declareVariable_names name.name after
  · exact known.mention untouched taken found inside .constancy
  · exact known.mention untouched taken found inside .plain

end Chains

section Steps

variable {before : List Token} {token : Token} {rest : List Token}

theorem stepName (untouched : draft.Untouched (token :: rest)) :
    (token :: rest).take ((draft.stepName before token rest).2 + 1) ⊆ passed →
      (draft.stepName before token rest).1.NamesApart passed := by
  unfold Draft.stepName
  split
  · exact fun _ => known
  · split
    · exact fun _ => known
    · next chain found =>
      intro taken
      have size := chain.size_pos
      have found : NameChain.read? ((token :: rest).drop 0) = some chain := found
      exact known.readName untouched taken found (by simp only; omega) before _

theorem stepNamespace (keyword : Token) : (draft.stepNamespace before keyword rest).1.NamesApart passed := by
  simp only [Draft.stepNamespace]
  split
  · exact known.setOpening _
  · split
    · split_ifs
      · exact known.keep (List.Subset.refl _) (List.Subset.refl _)
      · exact known.setOpening _
      · exact known
    · exact known
    · split_ifs
      · exact known.setOpening _
      · exact known

theorem stepPunctuator (behind : before ⊆ passed) :
    (draft.stepPunctuator before token rest).1.NamesApart passed := by
  unfold Draft.stepPunctuator
  split
  · exact known.openScope token _
  · exact known.closeScope token
  · exact known.endStatement behind
  · exact known.setFrame _
  · exact known.setFrame _
  case h_12 =>
    split
    · split
      · exact known.setFrame _
      · exact known
    · exact known
  all_goals exact known

variable (untouched : draft.Untouched rest)

include untouched

theorem stepUsing {keyword : Token} : rest.take (draft.stepUsing keyword rest).2 ⊆ passed →
    (draft.stepUsing keyword rest).1.NamesApart passed := by
  have recorded (kind : UsingKind) (target : NameChain) (newName : Option String) :
      (draft.recordUsing kind keyword target newName).NamesApart passed :=
    known.keep (List.Subset.refl _) (List.Subset.refl _)
  cases rest with
  | nil => exact fun _ => known
  | cons next after =>
      unfold Draft.stepUsing
      dsimp only
      split
      · split
        · exact fun _ => recorded _ _ _
        · exact fun _ => known
      · split
        · next defines =>
          intro taken
          have isName : next.isIdentifier = true := (Bool.and_eq_true_iff.mp defines).1
          exact known.declare (taken (by simp)) isName (untouched next (by simp)).1 .typeAlias
        · split
          · exact fun _ => known
          · split
            · split
              · exact fun _ => known
              · exact fun _ => recorded _ _ _
            · exact fun _ => known

theorem stepTemplate {keyword : Token} : rest.take (draft.stepTemplate before keyword rest).2 ⊆ passed →
    (draft.stepTemplate before keyword rest).1.NamesApart passed := by
  unfold Draft.stepTemplate
  split
  · intro taken
    obtain ⟨-, parks⟩ := readTemplate_names 0 0 0 draft.parked (keyword :: before) rest
    refine known.addNames (fun entry member => ?_) (List.Subset.refl _)
    rcases List.mem_append.mp member with old | parked
    · exact .inl (List.mem_append_left _ old)
    · rcases parks entry parked with old | ⟨name, inList, isName, place⟩
      · exact .inl (List.mem_append_right _ old)
      · exact .inr ⟨name, taken inList, isName, place, (untouched name (List.mem_of_mem_take inList)).1⟩
  · exact fun _ => known

theorem stepRecord : rest.take (draft.stepRecord before rest).2 ⊆ passed →
    (draft.stepRecord before rest).1.NamesApart passed := by
  simp only [Draft.stepRecord]
  split
  · split
    · exact fun _ => known.setOpening _
    · exact fun _ => known
  · next first found =>
    have named := recordName_found found rfl
    generalize recordName _ first _ = head at named ⊢
    obtain ⟨name, count⟩ := head
    split
    · intro taken
      exact known.mention untouched taken named (Nat.le_refl _) .typeKeyword
    · intro taken
      have inside : count + name.size ≤
          Token.attributesLength (count + name.size) (rest.drop (count + name.size)) := by
        rw [Token.attributesLength_add]
        omega
      have declared := known.declareSingle untouched taken named inside .record
      split
      · exact declared
      · exact declared.setOpening _

theorem stepEnumeration : rest.take (draft.stepEnumeration rest).2 ⊆ passed →
    (draft.stepEnumeration rest).1.NamesApart passed := by
  unfold Draft.stepEnumeration
  extract_lets closed lead lead' name? stop after body underlying named opened
  have stopEq (name : NameChain) (found : name? = some name) : stop = lead' + name.size := by
    simp [stop, found]
  split
  · intro taken
    have declared : named.NamesApart passed := by
      cases found : name? with
      | none => simpa only [named, found] using known
      | some name =>
          have inside : lead' + name.size ≤ if underlying then stop + 1 else stop := by
            rw [stopEq name found]
            split <;> omega
          have single := known.declareSingle untouched taken found inside .enumeration
          simpa only [named, found] using single
    simp only [opened]
    split
    · exact declared.setOpening _
    · exact declared
  · cases found : name? with
    | none => exact fun _ => known
    | some name =>
        intro taken
        exact known.mention untouched taken found (stopEq name found).ge .typeKeyword

theorem stepKeyword : rest.take (draft.stepKeyword before token rest).2 ⊆ passed →
    (draft.stepKeyword before token rest).1.NamesApart passed := by
  unfold Draft.stepKeyword
  split
  · exact fun _ => known.stepNamespace token
  · exact known.stepUsing untouched
  · exact known.stepTemplate untouched
  · exact known.stepRecord untouched
  · exact known.stepRecord untouched
  · exact known.stepRecord untouched
  · exact known.stepEnumeration untouched
  · exact fun _ => known.setFrame _
  · exact fun _ => known
  · split
    · exact fun _ => known.setOpening _
    · exact fun _ => known
  all_goals exact fun _ => known

end Steps

omit known in
/-- A step leaves declared and mentioned names apart, if no two tokens begin at one place. -/
theorem step {before rest : List Token} {token : Token} (known : draft.NamesApart before)
    (different : ∀ old ∈ before, ∀ new ∈ token :: rest, old.start ≠ new.start) :
    (draft.step before token rest).1.NamesApart
      ((rest.take (draft.step before token rest).2).reverse ++ token :: before) := by
  have untouched : draft.Untouched (token :: rest) := by
    intro new ahead
    constructor
    · intro mention member
      obtain ⟨old, isPassed, start⟩ := known.placed mention member
      exact start ▸ different old isPassed new ahead
    · intro entry member
      obtain ⟨old, isPassed, -, rfl⟩ := known.named entry member
      exact (different old isPassed new ahead).symm
  have others : draft.Untouched rest := fun new ahead => untouched new (List.mem_cons_of_mem _ ahead)
  generalize passedEq : (rest.take (draft.step before token rest).2).reverse ++ token :: before = passed
  have behind : before ⊆ passed := by
    rw [← passedEq]
    exact fun old member => List.mem_append_right _ (List.mem_cons_of_mem _ member)
  have taken : (token :: rest).take ((draft.step before token rest).2 + 1) ⊆ passed := by
    rw [← passedEq, List.take_succ_cons]
    intro new member
    rcases List.mem_cons.mp member with rfl | later
    · exact List.mem_append_right _ List.mem_cons_self
    · exact List.mem_append_left _ (List.mem_reverse.mpr later)
  have takenBehind : rest.take (draft.step before token rest).2 ⊆ passed :=
    fun new member => taken (List.mem_cons_of_mem _ member)
  have known := known.passOn behind
  clear passedEq
  unfold Draft.step at taken takenBehind ⊢
  cases kind : token.kind with
  | keyword =>
      rw [kind] at takenBehind
      exact known.stepKeyword others takenBehind
  | identifier =>
      rw [kind] at taken
      exact known.stepName untouched taken
  | scope =>
      rw [kind] at taken
      exact known.stepName untouched taken
  | punctuator => exact known.stepPunctuator behind
  | number => exact known
  | literal => exact known

omit known in
theorem readFrom {before tokens : List Token} (known : draft.NamesApart before)
    (ordered : (before.reverse ++ tokens).Pairwise fun left right => left.start < right.start) :
    (draft.readFrom before tokens).NamesApart (tokens.reverse ++ before) := by
  fun_induction Draft.readFrom draft before tokens with
  | case1 draft before => exact known
  | case2 draft before token rest next more stepEq ih =>
      have different : ∀ old ∈ before, ∀ new ∈ token :: rest, old.start ≠ new.start := by
        intro old inFront new ahead
        have before := (List.pairwise_append.mp ordered).2.2 old (List.mem_reverse.mpr inFront) new ahead
        exact Nat.ne_of_lt before
      have stepped := known.step different
      rw [stepEq] at stepped
      have parts : ((rest.take more).reverse ++ token :: before).reverse ++ rest.drop more =
          before.reverse ++ token :: rest := by
        simp
      have last := ih stepped (parts ▸ ordered)
      refine last.passOn fun old member => ?_
      simp only [List.mem_append, List.mem_reverse, List.mem_cons] at member ⊢
      rcases member with later | here | isToken | inFront
      · exact .inl (.inr (List.mem_of_mem_drop later))
      · exact .inl (.inr (List.mem_of_mem_take here))
      · exact .inl (.inl isToken)
      · exact .inr inFront

end NamesApart

end Draft

namespace Outline

/-- The name is declared by its token at `offset`, and no mention begins there. -/
def DeclaredAt (text name : String) (offset : Nat) : Prop :=
  (∃ token ∈ tokenize text, token.isIdentifier = true ∧ token.text = name ∧ token.start = offset) ∧
    ∀ mention ∈ (ofText text).mentions, mention.chain.span.start ≠ offset

theorem declaredAt_of_name {text : String} {draft : Draft} (finished : ofText text = draft.finish)
    (known : draft.NamesApart (tokenize text).reverse) {entry : String × Nat}
    (member : entry ∈ draft.names) : DeclaredAt text entry.1 entry.2 := by
  obtain ⟨token, inText, isName, rfl⟩ := known.named entry member
  refine ⟨⟨token, List.mem_reverse.mp inText, isName, rfl, rfl⟩, fun mention inFile => ?_⟩
  rw [finished] at inFile
  exact known.apart mention (List.mem_reverse.mp inFile) _ member

theorem exists_namesApart (text : String) :
    ∃ draft : Draft, ofText text = draft.finish ∧ draft.NamesApart (tokenize text).reverse := by
  have ordered : (List.reverse [] ++ tokenize text).Pairwise fun left right : Token =>
      left.start < right.start := List.pairwise_map.mp (tokenize_ascends text)
  have known := (Draft.start_namesApart (Text.byteLength text.toList)).readFrom ordered
  rw [List.append_nil] at known
  exact ⟨_, rfl, known⟩

/-- A declared name is no mention, and mentions stand one behind the other, outside the targets of the
using-statements. -/
theorem declared_not_mentioned (text : String) :
    (∀ entry ∈ (ofText text).declarations, DeclaredAt text entry.name entry.span.start) ∧
    (∀ entry ∈ (ofText text).bindings, DeclaredAt text entry.name entry.offset) ∧
    (∀ mention ∈ (ofText text).mentions, mention.chain.span.start < mention.chain.span.stop) ∧
    ((ofText text).mentions.Pairwise fun left right => left.chain.span.stop ≤ right.chain.span.start) ∧
    ∀ mention ∈ (ofText text).mentions, ∀ entry ∈ (ofText text).usings,
      mention.chain.span.stop ≤ entry.statement.targetStart ∨
        entry.statement.stop ≤ mention.chain.span.start := by
  obtain ⟨draft, finished, known⟩ := exists_namesApart text
  obtain ⟨log, trail⟩ := ofText_trail text
  refine ⟨?_, ?_, ?_, mentions_ordered text, ?_⟩
  · intro entry member
    rw [finished] at member
    have named : (entry.name, entry.span.start) ∈ draft.names := by
      refine List.mem_append_left _ (List.mem_append_left _ ?_)
      exact List.mem_map.mpr ⟨entry, List.mem_reverse.mp member, rfl⟩
    exact declaredAt_of_name finished known named
  · intro entry member
    rw [finished] at member
    have named : (entry.name, entry.offset) ∈ draft.names := by
      refine List.mem_append_left _ (List.mem_append_right _ ?_)
      exact List.mem_map.mpr ⟨entry, List.mem_reverse.mp member, rfl⟩
    exact declaredAt_of_name finished known named
  · intro mention inFile
    obtain ⟨print, inLog, -, spelled⟩ := trail.exists_mention inFile
    obtain ⟨start, stop, positive⟩ := Footprint.chain_span (trail.within print inLog) spelled
    omega
  · intro mention inFile entry recorded
    obtain ⟨print, inLog, landmark, spelled⟩ := trail.exists_mention inFile
    obtain ⟨print', inLog', landmark', -, -, stop, first, inTarget, targetStart⟩ :=
      trail.exists_statement recorded
    have within := trail.within print inLog
    have within' := trail.within print' inLog'
    have different : print ≠ print' := by
      rintro rfl
      simp [landmark] at landmark'
    obtain ⟨start, ends, -⟩ := Footprint.chain_span within spelled
    have behindTarget := (Footprint.covers_token within' inTarget).1
    have reaches := Footprint.last_stop_le within
    have reaches' := Footprint.last_stop_le within'
    rcases trail.apart inLog inLog' different with before | after
    · left
      omega
    · right
      omega

end Outline

end Requalify
