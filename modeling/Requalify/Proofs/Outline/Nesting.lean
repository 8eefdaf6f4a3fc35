import Requalify.Proofs.Outline.Heads

/-!
Reading what stands behind the heads of a definition. The scopes that have been opened keep all but their
ends, and the braces at the end of a text change nothing else.
-/

namespace Requalify

namespace Draft

section Heads

variable {unfolding : Unfolding} {floor : Floor} {depth : Nat} {old new next : Draft}
  {opened : List (String × Bool)}

/-- Behind the heads the drafts say the same again; all frames around stay open. -/
theorem Follows.enter (follows : old.Follows unfolding floor depth new) (start : floor.added = 0)
    (scope : unfolding.scope = old.scopes.size) (count : opened.length = unfolding.more + 1)
    (nested : new.Nested opened next) (brace : Token) (low' : Nat) :
    (old.enter opened brace).Follows unfolding
      ⟨brace.start, low', old.frame :: old.outer, next.outer, unfolding.more⟩ 0 next := by
  obtain ⟨_, _, eq⟩ := old.enter_eq opened brace
  have pushed : (old.enter opened brace).scopes = old.scopes.push (old.entered opened brace) := by rw [eq]
  have oldSize : (old.enter opened brace).scopes.size = old.scopes.size + 1 := by
    rw [pushed, Array.size_push]
  have newSize : next.scopes.size = old.scopes.size + unfolding.more + 1 := by
    rw [nested.size, follows.size, start, count]
    omega
  have last : unfolding.move old.scopes.size = next.scopes.size - 1 := by
    rw [← scope, unfolding.move_scope]
    omega
  have scopes (id : Nat) (bound : id < (old.enter opened brace).scopes.size) :
      ((old.enter opened brace).finish.scope id).Follows unfolding id
        (next.finish.scope (unfolding.move id)) := by
    rw [scope_push pushed]
    by_cases isLast : id = old.scopes.size
    · rw [if_pos isLast, isLast, last]
      refine ⟨nested.kind, nested.path.trans ?_, fun other => absurd scope.symm other⟩
      rw [follows.frame.path]
      rfl
    · have outer : id < unfolding.scope := by omega
      have known := follows.scopes id (by omega)
      rw [unfolding.move_of_lt outer] at known ⊢
      rw [if_neg isLast, nested.outside id (by rw [follows.size]; omega)]
      exact known
  rw [eq] at scopes ⊢
  refine {
    size := by
      rw [newSize, Array.size_push]
      exact Nat.add_right_comm _ _ _
    scopes := scopes
    declarations := by rw [nested.declarations, follows.declarations]
    bindings := by rw [nested.bindings, follows.bindings]
    usings := nested.usings ▸ follows.usings
    mentions := nested.mentions ▸ follows.mentions
    opening := by rw [nested.opening]
    parked := by rw [nested.parked]
    frame := ?_
    outer := ⟨[], [], rfl, rfl, .nil, rfl, rfl⟩ }
  rw [nested.frame, ← last, follows.frame.path]
  exact ⟨rfl, rfl, rfl, rfl, .none, rfl, rfl⟩

end Heads

/-! Scopes while a text is read. -/

theorem shape_step (draft : Draft) (before : List Token) (token : Token) (rest : List Token) {id : Nat}
    (known : id < draft.scopes.size) :
    ((draft.step before token rest).1.finish.scope id).shape = (draft.finish.scope id).shape := by
  by_cases opens : token.opensBrace = true
  · have skeleton := draft.openScope_skeleton token (Token.startsWithIdentifier before)
    rw [step_of_opensBrace _ _ _ opens, scope_push (congrArg (·.2.1) skeleton),
      if_neg (Nat.ne_of_lt known)]
  by_cases closes : token.closesBrace = true
  · rw [step_of_closesBrace _ _ _ closes]
    cases outer : draft.outer with
    | nil => rw [closeScope_of_nil outer]; rfl
    | cons around others =>
        rw [closeScope_of_outer outer]
        exact shape_endScope rfl id
  · have other : token.isBrace = false := by simp [Token.isBrace, opens, closes]
    rw [scope_congr (congrArg (·.2.1) (draft.step_stays before rest other).skeleton)]

theorem outer_length_step (draft : Draft) (before : List Token) (token : Token) (rest : List Token) :
    (draft.step before token rest).1.outer.length =
      if token.opensBrace then draft.outer.length + 1
      else if token.closesBrace then draft.outer.length - 1
      else draft.outer.length := by
  by_cases opens : token.opensBrace = true
  · have outer := congrArg (·.2.2.2) (draft.openScope_skeleton token (Token.startsWithIdentifier before))
    simp only [skeleton] at outer
    rw [step_of_opensBrace _ _ _ opens, if_pos opens, outer, List.length_cons]
  rw [if_neg opens]
  by_cases closes : token.closesBrace = true
  · rw [step_of_closesBrace _ _ _ closes, if_pos closes]
    cases outer : draft.outer with
    | nil => rw [closeScope_of_nil outer, outer]; rfl
    | cons around others => rw [closeScope_of_outer outer]; rfl
  · have other : token.isBrace = false := by simp [Token.isBrace, opens, closes]
    have outer := congrArg (·.2.2.2) (draft.step_stays before rest other).skeleton
    simp only [skeleton] at outer
    rw [if_neg closes, outer]

namespace Goes

variable {draft next : Draft} {before ahead behind left middle : List Token}

theorem shape (goes : Goes draft before ahead next behind left) {id : Nat}
    (known : id < draft.scopes.size) :
    (next.finish.scope id).shape = (draft.finish.scope id).shape := by
  induction goes with
  | stay => rfl
  | @step draft next before rest behind left token others ih =>
      have more : draft.scopes.size ≤ (draft.step before token rest).1.scopes.size :=
        (Goes.step (.stay _ _ _)).size_le
      rw [ih (Nat.lt_of_lt_of_le known more), draft.shape_step before token rest known]

theorem laminar (goes : Goes draft before ahead next behind left) (known : draft.Laminar ahead)
    (inOrder : Token.InOrder draft.size ahead) : next.Laminar left := by
  induction goes with
  | stay => exact known
  | @step draft next before rest behind left token others ih =>
      have laminar := known.step inOrder before
      rw [step_stride] at laminar
      refine ih laminar ?_
      rw [draft.step_size before rest token]
      exact inOrder.suffix ((List.drop_suffix _ rest).trans (List.suffix_cons token rest))

/-- How many frames are open around the innermost one. -/
theorem outer_length (goes : Goes draft before ahead next behind left) :
    ∃ passed, Token.stops before ahead = passed ++ Token.stops behind left ∧
      next.outer.length = Token.depthBehind draft.outer.length (passed.map (·.token)) := by
  induction goes with
  | stay => exact ⟨[], rfl, rfl⟩
  | @step draft next before rest behind left token others ih =>
      obtain ⟨passed, stopsEq, length⟩ := ih
      refine ⟨⟨before, token, rest⟩ :: passed, by rw [Token.stops, stopsEq, List.cons_append], ?_⟩
      rw [length, draft.outer_length_step before token rest]
      rfl

/-- The steps between two places begin at the stops between them. -/
theorem tokens_passed (goes : Goes draft before (middle ++ left) next behind left)
    (unique : (middle ++ left).Nodup) :
    ∃ passed, Token.stops before (middle ++ left) = passed ++ Token.stops behind left ∧
      passed.map (·.token) =
        middle.filter (· ∈ (Token.stops before (middle ++ left)).map (·.token)) := by
  obtain ⟨passed, stopsEq, sublist⟩ := goes.stops
  obtain ⟨uniqueMiddle, -, apart⟩ := List.nodup_append.mp unique
  refine ⟨passed, stopsEq, ?_⟩
  have isStop (token : Token) (member : token ∈ passed.map (·.token)) :
      token ∈ (Token.stops before (middle ++ left)).map (·.token) := by
    rw [stopsEq, List.map_append]
    exact List.mem_append_left _ member
  have fewer := sublist.filter (· ∈ (Token.stops before (middle ++ left)).map (·.token))
  rw [List.filter_eq_self.mpr fun token member => decide_eq_true (isStop token member)] at fewer
  refine fewer.eq_of_length_le (List.subperm_of_subset (uniqueMiddle.filter _) ?_).length_le
  intro token member
  obtain ⟨inside, isStop⟩ := List.mem_filter.mp member
  have isStop := of_decide_eq_true isStop
  rw [stopsEq, List.map_append, List.mem_append] at isStop
  refine isStop.resolve_right fun further => ?_
  exact apart token inside token ((Token.stops_sublist behind left).subset further) rfl

/-- If the braces that reading stops at are balanced, none of them closes a frame that has been open in front
of them. -/
theorem outer_length_lt {body : List Token}
    (balanced : Token.Balanced
      (body.filter (· ∈ (Token.stops before (body ++ left)).map (·.token))))
    (unique : (body ++ left).Nodup)
    {token : Token} {rest : List Token} (goes : Goes draft before (body ++ left) next behind (token :: rest))
    (inside : left <:+ rest) (closes : token.closesBrace = true) :
    draft.outer.length < next.outer.length := by
  obtain ⟨back, rfl⟩ := inside
  obtain ⟨middle, parts⟩ := goes.parts.2
  have same : body ++ left = middle ++ token :: back ++ left := by simpa using parts.symm
  obtain rfl := List.append_cancel_right same
  have regroup : middle ++ token :: back ++ left = middle ++ (token :: back ++ left) := List.append_assoc ..
  rw [regroup] at goes unique balanced
  obtain ⟨passed, stopsEq, passedEq⟩ := goes.tokens_passed unique
  obtain ⟨passed', stopsEq', length⟩ := goes.outer_length
  obtain rfl : passed' = passed := List.append_cancel_right (stopsEq'.symm.trans stopsEq)
  have isStop : token ∈ (Token.stops before (middle ++ (token :: back ++ left))).map (·.token) := by
    rw [stopsEq, List.cons_append, Token.stops]
    simp
  rw [List.filter_append, ← passedEq, List.filter_cons, if_pos (decide_eq_true isStop)] at balanced
  have deep := Token.le_depthBehind draft.outer.length (passed'.map (·.token))
  have bound := balanced.ahead (passed'.map (·.token) ++ [token])
    ((List.mem_inits _ _).mpr ⟨_, by rw [List.append_assoc, List.singleton_append]⟩)
  have notOpen : token.opensBrace = false :=
    Bool.eq_false_iff.mpr fun opens => by simp [Token.closesBrace_of_opensBrace opens] at closes
  rw [List.countP_append, List.countP_append, List.countP_singleton, List.countP_singleton,
    closes, notOpen] at bound
  simp only [if_true, Bool.false_eq_true, if_false] at bound
  omega

end Goes

/-! The end of a text. -/

/-- The drafts differ in where scopes end and which are open. -/
structure Ends (draft next : Draft) : Prop where
  size : next.scopes.size = draft.scopes.size
  shape : ∀ id, (next.finish.scope id).shape = (draft.finish.scope id).shape
  declarations : next.declarations = draft.declarations
  bindings : next.bindings = draft.bindings
  usings : next.usings = draft.usings
  mentions : next.mentions = draft.mentions

theorem Ends.trans {draft next last : Draft} (first : draft.Ends next) (second : next.Ends last) :
    draft.Ends last where
  size := second.size.trans first.size
  shape id := (second.shape id).trans (first.shape id)
  declarations := second.declarations.trans first.declarations
  bindings := second.bindings.trans first.bindings
  usings := second.usings.trans first.usings
  mentions := second.mentions.trans first.mentions

theorem closeScope_ends (draft : Draft) (brace : Token) : draft.Ends (draft.closeScope brace) := by
  cases outer : draft.outer with
  | nil =>
      rw [closeScope_of_nil outer]
      exact ⟨rfl, fun _ => rfl, rfl, rfl, rfl, rfl⟩
  | cons around others =>
      rw [closeScope_of_outer outer]
      exact ⟨by simp [endScope], shape_endScope rfl, rfl, rfl, rfl, rfl⟩

theorem readFrom_ends (draft : Draft) (before : List Token) {braces : List Token}
    (closing : ∀ brace ∈ braces, brace.closesBrace = true) : draft.Ends (draft.readFrom before braces) := by
  induction braces generalizing draft before with
  | nil =>
      rw [readFrom]
      exact ⟨rfl, fun _ => rfl, rfl, rfl, rfl, rfl⟩
  | cons brace braces ih =>
      obtain ⟨closes, others⟩ := List.forall_mem_cons.mp closing
      rw [readFrom, draft.step_of_closesBrace before braces closes]
      exact (draft.closeScope_ends brace).trans (ih _ _ others)

/-- The outlines of the whole texts. -/
theorem Follows.unfolds {unfolding : Unfolding} {floor : Floor} {depth : Nat} {old new old' new' : Draft}
    (follows : old.Follows unfolding floor depth new) (count : floor.added = unfolding.more)
    (known : unfolding.scope < old.scopes.size) (ends : old.Ends old') (ends' : new.Ends new')
    (isNamespace : (old.finish.scope unfolding.scope).kind.isNamespace = true)
    (around : ∃ parent < unfolding.scope, (old.finish.scope unfolding.scope).parent = some parent ∧
      (new.finish.scope unfolding.scope).parent = some parent)
    (within : ∀ level ∈ unfolding.added, (new.finish.scope (level + 1)).parent = some level)
    (named : ∀ level ∈ unfolding.added, ∃ isInline, (new.finish.scope level).kind = .named isInline) :
    old'.finish.Unfolds unfolding new'.finish := by
  have scopes (id : Nat) :
      (old'.finish.scope id).Follows unfolding id (new'.finish.scope (unfolding.move id)) := by
    by_cases inRange : id < old.scopes.size
    · exact (follows.scopes id inRange).of_shape (ends.shape id) (ends'.shape _)
    · have outside {draft : Draft} {id : Nat} (large : draft.scopes.size ≤ id) :
          draft.finish.scope id = default := by
        simp [Outline.scope, finish, Array.getD, Nat.not_lt.mpr large]
      have moved : unfolding.move id = id + unfolding.more := if_neg (by omega)
      rw [outside (by rw [ends.size]; omega),
        outside (by rw [ends'.size, follows.size, count, moved]; omega)]
      exact ⟨rfl, rfl, fun _ => rfl⟩
  have kind {draft next : Draft} (ends : draft.Ends next) (id : Nat) :
      (next.finish.scope id).kind = (draft.finish.scope id).kind := congrArg (·.1) (ends.shape id)
  have parent {draft next : Draft} (ends : draft.Ends next) (id : Nat) :
      (next.finish.scope id).parent = (draft.finish.scope id).parent := congrArg (·.2.1) (ends.shape id)
  exact {
    kind := fun id => (scopes id).kind
    path := fun id => (scopes id).path
    parent := fun id other => (scopes id).parent other
    around := by rwa [parent ends, parent ends']
    isNamespace := by rwa [kind ends]
    within := fun level isAdded => by rw [parent ends', within level isAdded]
    named := fun level isAdded => by rw [kind ends']; exact named level isAdded
    declarations := by
      simp only [finish, List.map_reverse, ends.declarations, ends'.declarations, follows.declarations]
    bindings := by
      simp only [finish, List.map_reverse, ends.bindings, ends'.bindings, follows.bindings]
    usings := by
      simp only [finish, ends.usings, ends'.usings]
      exact List.rel_reverse follows.usings
    mentions := by
      simp only [finish, ends.mentions, ends'.mentions]
      exact List.rel_reverse follows.mentions }

end Draft

/-! Places of tokens that two texts share. -/

namespace Token

/-- The tokens at the same index start at these offsets. -/
def Paired (left right : List Token) (offset offset' : Nat) : Prop :=
  ∃ index : Nat, (left.map start)[index]? = some offset ∧ (right.map start)[index]? = some offset'

theorem getElem?_lt_iff {offsets : List Nat} (ordered : offsets.Pairwise (· < ·)) {index other : Nat}
    {first second : Nat} (here : offsets[index]? = some first) (there : offsets[other]? = some second) :
    first < second ↔ index < other := by
  obtain ⟨bound, rfl⟩ := List.getElem?_eq_some_iff.mp here
  obtain ⟨bound', rfl⟩ := List.getElem?_eq_some_iff.mp there
  have ascends := List.pairwise_iff_getElem.mp ordered
  constructor
  · intro less
    by_contra later
    rcases Nat.lt_or_eq_of_le (Nat.le_of_not_lt later) with before | rfl
    · exact Nat.lt_asymm less (ascends _ _ bound' bound before)
    · exact Nat.lt_irrefl _ less
  · exact ascends _ _ bound bound'

theorem Paired.ascends {left right : List Token} (ordered : (left.map start).Pairwise (· < ·))
    (ordered' : (right.map start).Pairwise (· < ·)) {first second first' second' : Nat}
    (here : Paired left right first first') (there : Paired left right second second') :
    first < second ↔ first' < second' := by
  obtain ⟨index, firstAt, firstAt'⟩ := here
  obtain ⟨other, secondAt, secondAt'⟩ := there
  rw [getElem?_lt_iff ordered firstAt secondAt, getElem?_lt_iff ordered' firstAt' secondAt']

theorem alike_of_paired {left right : List Token} (lexemes : right.map lexeme = left.map lexeme) :
    List.Forall₂ (Alike (Paired left right)) left right := by
  have lengths : left.length = right.length := by
    have same := congrArg List.length lexemes
    simpa using same.symm
  refine List.forall₂_iff_get.mpr ⟨lengths, fun index bound bound' => ⟨?_, index, by simp [bound], ?_⟩⟩
  · have same := congrArg (·[index]?) lexemes
    simpa [bound, bound'] using same
  · simp [bound']

theorem Ahead.append {same : Nat → Nat → Prop} {left right rest rest' : List Token} {count : Nat}
    (alike : List.Forall₂ (Alike same) left right) (others : Ahead same count rest rest') :
    Ahead same (left.length + count) (left ++ rest) (right ++ rest') := by
  induction alike with
  | nil => simpa using others
  | cons here _ ih =>
      rw [List.length_cons, Nat.add_right_comm]
      exact .cons here ih

end Token

theorem tokenize_ascends (text : String) : ((tokenize text).map Token.start).Pairwise (· < ·) := by
  have inOrder := tokenize_inOrder text
  refine List.pairwise_map.mpr (inOrder.ordered.imp_of_mem fun {left right} member _ apart => ?_)
  exact Nat.lt_of_lt_of_le (inOrder.inText left member).1 apart

theorem tokenize_later {text : String} {front back : List Token} {token later : Token}
    (parts : tokenize text = front ++ token :: back) (behind : later ∈ back) :
    token.start ≤ later.start := by
  have ascends := tokenize_ascends text
  rw [parts, List.map_append, List.map_cons] at ascends
  have first := (List.pairwise_cons.mp (List.pairwise_append.mp ascends).2.1).1
  exact Nat.le_of_lt (first _ (List.mem_map_of_mem behind))

end Requalify
