import Requalify.Proofs.Outline.Ancestors
import Requalify.Proofs.Outline.Stays

/-!
The scopes of a file are laminar. While a file is read, the open scopes are the current one and those
around it, and they reach to the end of the text; all others have ended in front of the tokens that are
left. A mention stands in the innermost scope around it.
-/

namespace Requalify

/-- Tokens of a text of `size` bytes in their order. -/
structure Token.InOrder (size : Nat) (tokens : List Token) : Prop where
  inText : ∀ token ∈ tokens, token.start < token.stop ∧ token.stop ≤ size
  ordered : tokens.Pairwise fun left right => left.stop ≤ right.start

namespace Token.InOrder

variable {size : Nat}

theorem suffix {tokens back : List Token} (inOrder : InOrder size tokens) (isBack : back <:+ tokens) :
    InOrder size back :=
  ⟨fun token member => inOrder.inText token (isBack.subset member),
    inOrder.ordered.sublist isBack.sublist⟩

theorem lt_of_taken {tokens : List Token} (inOrder : InOrder size tokens) {count : Nat}
    {token later : Token} (taken : token ∈ tokens.take count) (behind : later ∈ tokens.drop count) :
    token.start < later.start := by
  have ordered := inOrder.ordered
  rw [← List.take_append_drop count tokens] at ordered
  have apart := (List.pairwise_append.mp ordered).2.2 token taken later behind
  exact Nat.lt_of_lt_of_le (inOrder.inText token (List.mem_of_mem_take taken)).1 apart

end Token.InOrder

theorem tokenize_inOrder (text : String) :
    Token.InOrder (Text.byteLength text.toList) (tokenize text) := by
  refine ⟨fun token member => ?_, tokenize_pairwise text⟩
  obtain ⟨front, behind, parts⟩ := List.append_of_mem member
  have placed : token.Placed text.toList behind := tokenize_placed ⟨front, parts.symm⟩
  refine ⟨placed.start_lt_stop, ?_⟩
  obtain ⟨-, before, after, textEq, start, -⟩ := placed
  rw [textEq, Text.byteLength_append, Text.byteLength_append, start, Token.stop]
  omega

namespace Draft

/-- The scopes of a draft are laminar, in front of the tokens of `ahead`. -/
structure Laminar (draft : Draft) (ahead : List Token) : Prop where
  laminar : draft.finish.Laminar draft.size
  current : draft.frame.scope < draft.scopes.size
  opened : draft.finish.ancestors draft.frame.scope =
    draft.frame.scope :: draft.outer.map (·.scope)
  isOpen : ∀ id ∈ draft.finish.ancestors draft.frame.scope, 0 < id →
    (draft.finish.scope id).span.stop = draft.size ∧
      ∀ token ∈ ahead, (draft.finish.scope id).span.start < token.start
  isClosed : ∀ id < draft.scopes.size, id ∉ draft.finish.ancestors draft.frame.scope →
    (draft.finish.scope id).span.stop ≤ draft.size ∧
      ∀ token ∈ ahead, (draft.finish.scope id).span.stop ≤ token.start
  mentions : ∀ mention ∈ draft.mentions, mention.scope < draft.scopes.size ∧
    (draft.finish.scope mention.scope).span.Contains mention.chain.start ∧
      (∀ child < draft.scopes.size, (draft.finish.scope child).parent = some mention.scope →
        ¬(draft.finish.scope child).span.Contains mention.chain.start) ∧
      ∀ token ∈ ahead, mention.chain.start < token.start

theorem start_laminar (size : Nat) (ahead : List Token) : (Draft.start size).Laminar ahead where
  laminar := {
    known := Nat.one_pos
    file := rfl
    notGlobal := by
      intro id bound positive
      simp [finish, start] at bound
      omega
    nonempty := by
      intro id bound
      obtain rfl : id = 0 := by simpa [finish, start] using bound
      simp [finish, start, Outline.scope, Span.between]
    inside := by
      intro id bound positive
      simp [finish, start] at bound
      omega
    apart := by
      intro left right less bound
      simp [finish, start] at bound
      omega }
  current := Nat.one_pos
  opened := Outline.ancestors_of_root rfl
  isOpen id member positive := by
    rw [Outline.ancestors_of_root rfl, List.mem_singleton] at member
    simp [member, start, Frame.ofScope] at positive
  isClosed id bound notOpen := by
    obtain rfl : id = 0 := by simpa [start] using bound
    exact absurd (Outline.mem_ancestors_self _ _) notOpen
  mentions := by simp [start]

/-- What a draft knows of its scopes depends on nothing else. -/
theorem scope_congr {draft next : Draft} (same : next.scopes = draft.scopes) (id : Nat) :
    next.finish.scope id = draft.finish.scope id := by
  simp only [Outline.scope, finish, same]

theorem ancestors_congr {draft next : Draft} (same : next.scopes = draft.scopes) (id : Nat) :
    next.finish.ancestors id = draft.finish.ancestors id :=
  Outline.ancestors_congr fun other _ => congrArg (·.parent) (scope_congr same other)

theorem scope_push {draft next : Draft} {scope : Scope} (pushed : next.scopes = draft.scopes.push scope)
    (id : Nat) : next.finish.scope id =
      if id = draft.scopes.size then scope else draft.finish.scope id :=
  @Outline.scope_push draft.finish next.finish scope pushed id

theorem scope_endScope {draft next : Draft} {brace : Token} (bound : draft.frame.scope < draft.scopes.size)
    (modified : next.scopes = draft.endScope brace) (id : Nat) : next.finish.scope id =
      if id = draft.frame.scope then
        { draft.finish.scope id with
          span := Span.between (draft.finish.scope id).span.start brace.stop }
      else draft.finish.scope id :=
  @Outline.scope_close draft.finish next.finish _ _ bound modified id

namespace Laminar

variable {draft : Draft}

/-- The current scope begins in front of the tokens that are left and reaches to the end of the text. -/
theorem current_around {ahead : List Token} (known : draft.Laminar ahead) {token : Token}
    (isAhead : token ∈ ahead) :
    (draft.finish.scope draft.frame.scope).span.start ≤ token.start ∧
      draft.size ≤ (draft.finish.scope draft.frame.scope).span.stop := by
  by_cases file : 0 < draft.frame.scope
  · obtain ⟨reaches, starts⟩ := known.isOpen _ (Outline.mem_ancestors_self _ _) file
    exact ⟨Nat.le_of_lt (starts token isAhead), Nat.le_of_eq reaches.symm⟩
  · rw [Nat.eq_zero_of_not_pos file, known.laminar.file]
    exact ⟨Nat.zero_le _, by simp only [Span.between]; omega⟩

/-- The scopes in the current one have ended in front of the tokens that are left. -/
theorem child_ended {ahead : List Token} (known : draft.Laminar ahead) {child : Nat}
    (bound : child < draft.scopes.size)
    (isChild : (draft.finish.scope child).parent = some draft.frame.scope) {token : Token}
    (isAhead : token ∈ ahead) : (draft.finish.scope child).span.stop ≤ token.start := by
  have notFile : 0 < child := Nat.pos_of_ne_zero fun file => by
    rw [file, known.laminar.file] at isChild
    simp at isChild
  obtain ⟨parent, smaller, found, -⟩ := known.laminar.inside child bound notFile
  obtain rfl : parent = draft.frame.scope := Option.some.inj (found.symm.trans isChild)
  have notOpen : child ∉ draft.finish.ancestors draft.frame.scope := fun around =>
    absurd (Outline.le_of_mem_ancestors around) (by omega)
  exact (known.isClosed child bound notOpen).2 token isAhead

/-- While no scope opens or closes, only new mentions matter. -/
theorem stays {next : Draft} {token : Token} {rest : List Token} {more : Nat}
    (known : draft.Laminar (token :: rest)) (inOrder : Token.InOrder draft.size (token :: rest))
    (stays : draft.Stays next (token :: rest.take more)) : next.Laminar (rest.drop more) := by
  have same := stays.skeleton
  simp only [skeleton, Prod.mk.injEq] at same
  obtain ⟨sizeEq, scopesEq, ⟨scopeEq, -, -⟩, outerEq⟩ := same
  have shorter {later : Token} (member : later ∈ rest.drop more) : later ∈ token :: rest :=
    List.mem_cons_of_mem _ (List.mem_of_mem_drop member)
  constructor
  case laminar =>
    have count : next.finish.scopes.size = draft.finish.scopes.size := congrArg Array.size scopesEq
    obtain ⟨known, file, notGlobal, nonempty, inside, apart⟩ := known.laminar
    constructor <;> simp only [scope_congr scopesEq, ancestors_congr scopesEq, count, sizeEq]
    all_goals assumption
  case current => simpa only [scopeEq, scopesEq] using known.current
  case opened => simpa only [scopeEq, outerEq, ancestors_congr scopesEq] using known.opened
  case isOpen =>
    simp only [scope_congr scopesEq, ancestors_congr scopesEq, scopeEq, sizeEq]
    intro id member positive
    obtain ⟨stop, start⟩ := known.isOpen id member positive
    exact ⟨stop, fun later isLater => start later (shorter isLater)⟩
  case isClosed =>
    simp only [scope_congr scopesEq, ancestors_congr scopesEq, scopesEq, scopeEq, sizeEq]
    intro id bound notOpen
    obtain ⟨stop, start⟩ := known.isClosed id bound notOpen
    exact ⟨stop, fun later isLater => start later (shorter isLater)⟩
  case mentions =>
    simp only [scope_congr scopesEq, scopesEq]
    intro mention member
    rcases stays.mentions mention member with old | ⟨scope, place, taken, start⟩
    · obtain ⟨bound, inside, children, infront⟩ := known.mentions mention old
      exact ⟨bound, inside, children, fun later isLater => infront later (shorter isLater)⟩
    · have ahead : place ∈ token :: rest :=
        List.mem_of_mem_take (i := more + 1) taken
      obtain ⟨nonempty, inText⟩ := inOrder.inText place ahead
      rw [scope, start]
      refine ⟨known.current, ?_, fun child bound isChild inside => ?_, fun later isLater => ?_⟩
      · obtain ⟨starts, stops⟩ := known.current_around ahead
        exact ⟨starts, by omega⟩
      · exact absurd inside.2 (Nat.not_lt_of_le (known.child_ended bound isChild ahead))
      · exact inOrder.lt_of_taken (List.take_succ_cons ▸ taken) isLater

/-- A new scope lies in the current one, behind all that have ended. -/
theorem openScope {brace : Token} {rest : List Token} (known : draft.Laminar (brace :: rest))
    (inOrder : Token.InOrder draft.size (brace :: rest)) (afterName : Bool) :
    (draft.openScope brace afterName).Laminar rest := by
  have same := draft.openScope_skeleton brace afterName
  have mentionsEq := draft.openScope_mentions brace afterName
  generalize draft.openScope brace afterName = next at same mentionsEq ⊢
  simp only [skeleton, Prod.mk.injEq] at same
  obtain ⟨sizeEq, scopesEq, ⟨scopeEq, -, -⟩, outerEq⟩ := same
  have count : next.scopes.size = draft.scopes.size + 1 := by rw [scopesEq, Array.size_push]
  have pushed : next.finish.scopes = draft.finish.scopes.push (draft.newScope brace) := scopesEq
  have old {id : Nat} (bound : id < draft.scopes.size) := Outline.scope_push_old pushed bound
  have new : next.finish.scope draft.scopes.size = draft.newScope brace := Outline.scope_push_new pushed
  have newAncestors : next.finish.ancestors draft.scopes.size =
      draft.scopes.size :: draft.finish.ancestors draft.frame.scope :=
    Outline.ancestors_push_new pushed rfl known.current
  obtain ⟨nonempty, inText⟩ := inOrder.inText brace (by simp)
  have newSpan : (draft.newScope brace).span = ⟨brace.start, draft.size, by omega⟩ :=
    Span.between_of_le (by omega)
  have ahead {token : Token} (member : token ∈ rest) : token ∈ brace :: rest :=
    List.mem_cons_of_mem _ member
  constructor
  case laminar =>
    rw [sizeEq]
    refine Outline.Laminar.push pushed rfl known.current known.laminar (draft.newScope_notGlobal brace) ?_ ?_ ?_
    · rw [newSpan]
      exact Nat.lt_of_lt_of_le nonempty inText
    · rw [newSpan]
      exact known.current_around (by simp)
    · intro id bound notAround
      rw [newSpan]
      exact (known.isClosed id bound notAround).2 brace (by simp)
  case current => omega
  case opened => rw [scopeEq, newAncestors, known.opened, outerEq, List.map_cons]
  case isOpen =>
    intro id member positive
    rw [scopeEq, newAncestors] at member
    rcases List.mem_cons.mp member with rfl | outer
    · rw [new, newSpan, sizeEq]
      refine ⟨rfl, fun token isLater => ?_⟩
      exact Nat.lt_of_lt_of_le nonempty ((List.pairwise_cons.mp inOrder.ordered).1 token isLater)
    · have bound := Nat.lt_of_le_of_lt (Outline.le_of_mem_ancestors outer) known.current
      obtain ⟨stop, starts⟩ := known.isOpen id outer positive
      rw [old bound, sizeEq]
      exact ⟨stop, fun token isLater => starts token (ahead isLater)⟩
  case isClosed =>
    intro id bound notOpen
    rw [scopeEq, newAncestors, List.mem_cons, not_or] at notOpen
    have isOld : id < draft.scopes.size := by omega
    obtain ⟨stop, stops⟩ := known.isClosed id isOld notOpen.2
    rw [old isOld, sizeEq]
    exact ⟨stop, fun token isLater => stops token (ahead isLater)⟩
  case mentions =>
    intro mention member
    rw [mentionsEq] at member
    obtain ⟨bound, inside, children, infront⟩ := known.mentions mention member
    rw [old bound]
    refine ⟨by omega, inside, fun child childBound isChild => ?_, fun token isLater =>
      infront token (ahead isLater)⟩
    rcases Nat.lt_succ_iff_lt_or_eq.mp (count ▸ childBound) with isOld | rfl
    · rw [old isOld] at isChild ⊢
      exact children child isOld isChild
    · rw [new, newSpan]
      exact fun inside => absurd inside.1 (Nat.not_le_of_lt (infront brace (by simp)))

/-- The current scope ends with the closing brace, behind all scopes inside it. -/
theorem closeScope {brace : Token} {rest : List Token} (known : draft.Laminar (brace :: rest))
    (inOrder : Token.InOrder draft.size (brace :: rest)) : (draft.closeScope brace).Laminar rest := by
  rcases outerEq : draft.outer with - | ⟨around, outer⟩
  · -- A surplus closing brace ends nothing.
    rw [closeScope_of_nil outerEq]
    have same : draft.Stays { draft with opening := none } (brace :: rest.take 0) :=
      ⟨rfl, List.suffix_refl _, fun _ => .inl⟩
    exact known.stays inOrder same
  have ahead {token : Token} (member : token ∈ rest) : token ∈ brace :: rest :=
    List.mem_cons_of_mem _ member
  rw [closeScope_of_outer outerEq]
  generalize nextEq : { draft with
    scopes := draft.endScope brace, frame := around, outer := outer, opening := none } = next
  have sizeEq : next.size = draft.size := by rw [← nextEq]
  have frameEq : next.frame.scope = around.scope := by rw [← nextEq]
  have closed : next.finish.scopes = draft.finish.scopes.modify draft.frame.scope fun scope =>
      { scope with span := Span.between scope.span.start brace.stop } := by
    rw [← nextEq]
    rfl
  have count : next.scopes.size = draft.scopes.size := (congrArg Array.size closed).trans Array.size_modify
  -- The scope that ends is not the file, and lies in the scope of the next frame.
  obtain ⟨positive, smaller, isParent, aroundEq⟩ := known.laminar.parent_of_opened
    known.current (known.opened.trans (by rw [outerEq, List.map_cons]))
  obtain ⟨nonempty, inText⟩ := inOrder.inText brace (by simp)
  obtain ⟨openStop, openStart⟩ := known.isOpen _ (Outline.mem_ancestors_self _ _) positive
  have started := Nat.lt_trans (openStart brace (by simp)) nonempty
  have shorter : brace.stop ≤ (draft.finish.scope draft.frame.scope).span.stop := by rwa [openStop]
  have endSpan := Outline.span_close known.current closed started
  have other {id : Nat} (different : id ≠ draft.frame.scope) :=
    Outline.scope_close_other known.current closed different
  have ancestorsEq := Outline.ancestors_close known.current closed
  constructor
  case laminar =>
    rw [sizeEq]
    refine Outline.Laminar.close known.current closed started shorter known.laminar positive ?_
    exact fun id bound isChild =>
      Nat.le_trans (known.child_ended bound isChild (by simp)) (Nat.le_of_lt nonempty)
  case current =>
    rw [frameEq, count]
    exact Nat.lt_trans smaller known.current
  case opened => rw [frameEq, ancestorsEq, aroundEq, ← nextEq]
  case isOpen =>
    intro id member notFile
    rw [frameEq, ancestorsEq] at member
    have less := Nat.lt_of_le_of_lt (Outline.le_of_mem_ancestors member) smaller
    obtain ⟨stop, starts⟩ := known.isOpen id
      (known.opened ▸ List.mem_cons_of_mem _ (by rwa [outerEq, List.map_cons, ← aroundEq])) notFile
    rw [other (Nat.ne_of_lt less), sizeEq]
    exact ⟨stop, fun token isLater => starts token (ahead isLater)⟩
  case isClosed =>
    intro id bound notOpen
    rw [frameEq, ancestorsEq] at notOpen
    by_cases same : id = draft.frame.scope
    · subst same
      rw [endSpan, sizeEq]
      exact ⟨inText, (List.pairwise_cons.mp inOrder.ordered).1⟩
    · have notOpen' : id ∉ draft.finish.ancestors draft.frame.scope := by
        rw [known.opened, outerEq, List.map_cons, ← aroundEq, List.mem_cons, not_or]
        exact ⟨same, notOpen⟩
      obtain ⟨stop, stops⟩ := known.isClosed id (count ▸ bound) notOpen'
      rw [other same, sizeEq]
      exact ⟨stop, fun token isLater => stops token (ahead isLater)⟩
  case mentions =>
    intro mention member
    rw [← nextEq] at member
    obtain ⟨bound, inside, children, infront⟩ := known.mentions mention member
    refine ⟨count ▸ bound, ?_, fun child childBound isChild inChild => ?_, fun token isLater =>
      infront token (ahead isLater)⟩
    · by_cases same : mention.scope = draft.frame.scope
      · rw [same, endSpan]
        rw [same] at inside
        exact ⟨inside.1, Nat.lt_trans (infront brace (by simp)) nonempty⟩
      · rwa [other same]
    · exact children child (count ▸ childBound)
        (Outline.parent_close known.current closed child ▸ isChild)
        ((Outline.within_close known.current closed started shorter child).contains inChild)

theorem step {token : Token} {rest : List Token} (known : draft.Laminar (token :: rest))
    (inOrder : Token.InOrder draft.size (token :: rest)) (before : List Token) :
    (draft.step before token rest).1.Laminar (rest.drop (draft.step before token rest).2) := by
  by_cases opens : token.opensBrace = true
  · rw [draft.step_of_opensBrace before rest opens]
    exact known.openScope inOrder _
  by_cases closes : token.closesBrace = true
  · rw [draft.step_of_closesBrace before rest closes]
    exact known.closeScope inOrder
  · have other : token.isBrace = false := by simp [Token.isBrace, opens, closes]
    exact known.stays inOrder (draft.step_stays before rest other)

theorem readFrom {draft : Draft} {before tokens : List Token} (known : draft.Laminar tokens)
    (inOrder : Token.InOrder draft.size tokens) : (draft.readFrom before tokens).Laminar [] := by
  fun_induction Draft.readFrom draft before tokens with
  | case1 => exact known
  | case2 draft before token rest next more stepEq ih =>
      have laminar := known.step inOrder before
      have size := draft.step_size before rest token
      rw [stepEq] at laminar size
      refine ih laminar (size ▸ inOrder.suffix ?_)
      exact (List.drop_suffix more rest).trans (List.suffix_cons token rest)

end Laminar

end Draft

namespace Outline

theorem exists_laminar_draft (text : String) :
    ∃ draft : Draft, draft.finish = ofText text ∧ draft.size = Text.byteLength text.toList ∧
      draft.Laminar [] :=
  ⟨_, rfl, Draft.readFrom_size .., (Draft.start_laminar _ _).readFrom (tokenize_inOrder text)⟩

theorem ofText_laminar (text : String) : (ofText text).Laminar (Text.byteLength text.toList) := by
  obtain ⟨draft, finished, size, known⟩ := exists_laminar_draft text
  rw [← finished, ← size]
  exact known.laminar

/-- A name is read in the innermost scope around it. -/
theorem ofText_scopeAt_mention {text : String} {mention : Mention}
    (member : mention ∈ (ofText text).mentions)
    (inText : mention.chain.start ≤ Text.byteLength text.toList) :
    (ofText text).scopeAt mention.chain.start = mention.scope := by
  obtain ⟨draft, finished, size, known⟩ := exists_laminar_draft text
  rw [← size] at inText
  rw [← finished] at member ⊢
  obtain ⟨bound, inside, children, -⟩ := known.mentions mention (List.mem_reverse.mp member)
  exact (known.laminar.scopeAt_eq_iff inText bound).mpr ⟨inside, children⟩

/-- The scopes of any text, balanced or not, form a tree. Its root is the file, their spans follow it, and
the scope at an offset is the innermost one around it. -/
theorem scopes_laminar (text : String) :
    (∀ id < (ofText text).scopes.size, ((ofText text).scope id).kind = .global ↔ id = 0) ∧
    (∀ id < (ofText text).scopes.size, ((ofText text).scope id).kind ≠ .global →
      ∃ parent < id, ((ofText text).scope id).parent = some parent ∧
        ((ofText text).scope id).span.Within ((ofText text).scope parent).span) ∧
    (∀ left < (ofText text).scopes.size, ∀ right < (ofText text).scopes.size,
      (left ∈ (ofText text).ancestors right →
        ((ofText text).scope right).span.Within ((ofText text).scope left).span) ∧
      (left ∉ (ofText text).ancestors right → right ∉ (ofText text).ancestors left →
        ¬((ofText text).scope left).span.Overlaps ((ofText text).scope right).span)) ∧
    ∀ offset ≤ Text.byteLength text.toList,
      (ofText text).scopeAt offset < (ofText text).scopes.size ∧
      ∀ id < (ofText text).scopes.size, (ofText text).scopeAt offset = id ↔
        ((ofText text).scope id).span.Contains offset ∧
          ∀ child < (ofText text).scopes.size, ((ofText text).scope child).parent = some id →
            ¬((ofText text).scope child).span.Contains offset := by
  have laminar := ofText_laminar text
  have file (id : Nat) (bound : id < (ofText text).scopes.size) :
      ((ofText text).scope id).kind = .global ↔ id = 0 := by
    constructor
    · intro isGlobal
      exact Nat.eq_zero_of_not_pos fun positive => laminar.notGlobal id bound positive isGlobal
    · rintro rfl
      rw [laminar.file]
  refine ⟨file, fun id bound notGlobal => laminar.inside id bound (Nat.pos_of_ne_zero fun zero =>
      notGlobal ((file id bound).mpr zero)), fun left leftBound right rightBound =>
        ⟨laminar.within rightBound, laminar.not_overlaps leftBound rightBound⟩,
    fun offset inText => ⟨(laminar.scopeAt_spec inText).1, fun id bound =>
      laminar.scopeAt_eq_iff inText bound⟩⟩

end Outline

end Requalify
