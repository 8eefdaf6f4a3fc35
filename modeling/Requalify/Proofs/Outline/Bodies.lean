import Requalify.Proofs.Outline.Braces
import Requalify.Proofs.Outline.Laminar
import Requalify.Proofs.Outline.Parameters

/-!
Bodies of functions. What was parked is bound in the scope that the brace of the body opens, and this scope
ends with the brace that closes the body.
-/

namespace Requalify

/-- Nothing up to the body of a function takes its parameters: a brace opens a value behind a name only.
`before` is nearest first. -/
def Token.isHead (before : List Token) : List Token → Bool
  | [] => true
  | token :: rest =>
      (token.isQuiet || token.closesBrace || token.opensBrace && startsWithIdentifier before) &&
        isHead (token :: before) rest

theorem Token.isHead_append {before front rest : List Token} {token : Token}
    (head : isHead before (front ++ token :: rest) = true) :
    token.isQuiet = true ∨ token.closesBrace = true ∨
      token.opensBrace = true ∧ startsWithIdentifier (front.reverse ++ before) = true := by
  induction front generalizing before with
  | nil =>
      have here := (Bool.and_eq_true_iff.mp head).1
      simpa [or_assoc] using here
  | cons first front ih =>
      have further := ih (Bool.and_eq_true_iff.mp head).2
      simpa using further

namespace Draft

section Opening

variable {draft : Draft}

theorem openScope_parked (noOpening : draft.opening = none) (brace : Token) :
    (draft.openScope brace true).opening = none ∧ (draft.openScope brace true).parked = draft.parked := by
  simp [openScope, noOpening, bindParked, defineNamespaces]

/-- The brace of a body binds the parameters. -/
theorem openScope_bindings (noOpening : draft.opening = none) (brace : Token) :
    (draft.openScope brace false).bindings =
      draft.parked.map (fun (name, offset) => ⟨name, draft.scopes.size, offset⟩) ++ draft.bindings := by
  simp [openScope, noOpening, bindParked, defineNamespaces]

variable (draft) (before : List Token) (token : Token) (rest : List Token)

theorem step_bindings : draft.bindings <:+ (draft.step before token rest).1.bindings := by
  by_cases opens : token.opensBrace = true
  · rw [draft.step_of_opensBrace before rest opens]
    have bound (draft : Draft) (id : Nat) (kind : ScopeKind) (afterName : Bool) :
        draft.bindings <:+ (draft.bindParked id kind afterName).bindings := by
      unfold bindParked
      split
      · exact List.suffix_refl _
      · exact List.suffix_append _ _
      · exact List.suffix_append _ _
      · exact List.suffix_refl _
    have defined (opening : Option Opening) :
        (draft.defineNamespaces opening).bindings = draft.bindings := by
      unfold defineNamespaces
      split <;> rfl
    rw [← defined draft.opening]
    exact bound _ _ _ _
  by_cases closes : token.closesBrace = true
  · rw [draft.step_of_closesBrace before rest closes]
    unfold closeScope
    split <;> exact List.suffix_refl _
  · have other : token.isBrace = false := by simp [Token.isBrace, opens, closes]
    exact (draft.step_stays before rest other).bindings

theorem readFrom_bindings (tokens : List Token) :
    draft.bindings <:+ (draft.readFrom before tokens).bindings := by
  fun_induction Token.stops before tokens generalizing draft with
  | case1 before => rw [readFrom]
  | case2 before token rest more ih =>
      rw [readFrom_cons]
      exact (draft.step_bindings before token rest).trans (ih _)

end Opening

namespace Goes

variable {draft next : Draft} {before ahead behind left middle : List Token}

/-- Parameters wait while the rest of the head is read. -/
theorem head (goes : Goes draft before (middle ++ left) next behind left)
    (isHead : Token.isHead [] middle = true) (noOpening : draft.opening = none) :
    next.opening = none ∧ draft.parked <:+ next.parked := by
  refine goes.across (motive := fun next _ => next.opening = none ∧ draft.parked <:+ next.parked) ?_
    ⟨noOpening, List.suffix_refl _⟩
  rintro next front token back rfl ⟨noOpening, waiting⟩ more
  rcases Token.isHead_append isHead with quiet | closes | ⟨opens, afterName⟩
  · have waits := next.step_waits (front.reverse ++ before) (back ++ left) quiet
    exact ⟨waits.opening.trans noOpening, waiting.trans waits.parked⟩
  · rw [step_of_closesBrace _ _ _ closes]
    unfold closeScope
    split <;> exact ⟨rfl, waiting⟩
  · have behindName : Token.startsWithIdentifier (front.reverse ++ before) = true := by
      rw [List.append_nil] at afterName
      cases reversed : front.reverse with
      | nil => simp [reversed, Token.startsWithIdentifier] at afterName
      | cons first others => simpa [reversed, Token.startsWithIdentifier] using afterName
    rw [step_of_opensBrace _ _ _ opens, behindName]
    obtain ⟨opening, parked⟩ := openScope_parked noOpening token
    exact ⟨opening, parked ▸ waiting⟩

/-- A token ahead that is a stop of the whole is a stop from here on. -/
theorem mem_stops (goes : Goes draft before (middle ++ left) next behind left)
    (unique : (middle ++ left).Nodup) {token : Token} (member : token ∈ left)
    (isStop : token ∈ (Token.stops before (middle ++ left)).map (·.token)) :
    token ∈ (Token.stops behind left).map (·.token) := by
  obtain ⟨passed, stopsEq, sublist⟩ := goes.stops
  rw [stopsEq, List.map_append, List.mem_append] at isStop
  refine isStop.resolve_left fun inside => ?_
  exact (List.nodup_append.mp unique).2.2 token (sublist.subset inside) token member rfl

/-- Reading reaches a stop. -/
theorem to_stop {token : Token} (draft : Draft)
    (unique : (before.reverse ++ (middle ++ token :: left)).Nodup)
    (isStop : token ∈ (Token.stops before (middle ++ token :: left)).map (·.token)) :
    ∃ next, Goes draft before (middle ++ token :: left) next (middle.reverse ++ before) (token :: left) := by
  obtain ⟨stop, member, rfl⟩ := List.mem_map.mp isStop
  obtain ⟨next, goes⟩ := of_stop draft member
  obtain ⟨parts, -⟩ := Token.parts_of_stop member
  rw [← List.append_assoc] at parts unique
  have apart := List.nodup_append.mp unique
  have notBefore : stop.token ∉ before.reverse ++ middle := fun inside =>
    apart.2.2 _ inside _ (List.mem_cons_self ..) rfl
  have notBehind : stop.token ∉ left := (List.nodup_cons.mp apart.2.1).1
  obtain ⟨beforeEq, -, rfl⟩ := (List.append_cons_inj_of_notMem notBefore notBehind).mp parts
  have same : stop.before = middle.reverse ++ before := by
    rw [← List.reverse_reverse stop.before, ← beforeEq]
    simp
  exact ⟨next, same ▸ goes⟩

/-- The braces between two places are the stops at braces between them. -/
theorem filter_stops (goes : Goes draft before (middle ++ left) next behind left)
    (unique : (middle ++ left).Nodup)
    (stopsAt : ∀ token ∈ middle, token.isBrace = true →
      token ∈ (Token.stops before (middle ++ left)).map (·.token)) :
    ∃ passed, Token.stops before (middle ++ left) = passed ++ Token.stops behind left ∧
      (passed.map (·.token)).filter Token.isBrace = middle.filter Token.isBrace := by
  obtain ⟨passed, stopsEq, sublist⟩ := goes.stops
  obtain ⟨uniqueMiddle, -, apart⟩ := List.nodup_append.mp unique
  refine ⟨passed, stopsEq, (sublist.filter _).eq_of_length_le ?_⟩
  refine (List.subperm_of_subset (uniqueMiddle.filter _) fun token member => ?_).length_le
  obtain ⟨inside, isBrace⟩ := List.mem_filter.mp member
  have isStop := stopsAt token inside isBrace
  rw [stopsEq, List.map_append, List.mem_append] at isStop
  refine List.mem_filter.mpr ⟨isStop.resolve_right fun further => ?_, isBrace⟩
  exact apart token inside token ((Token.stops_sublist behind left).subset further) rfl

/-- Each opening brace that reading stops at opens a scope. -/
theorem scopes_size (goes : Goes draft before ahead next behind left) :
    next.scopes.size + ((Token.stops behind left).map (·.token)).countP Token.opensBrace =
      draft.scopes.size + ((Token.stops before ahead).map (·.token)).countP Token.opensBrace := by
  induction goes with
  | stay => rfl
  | @step draft next before rest behind left token others ih =>
      have nest := congrArg (·.spans.length) (draft.step_nest before token rest)
      simp only [spans_length] at nest
      rw [ih, nest, Token.stops, List.map_cons, List.countP_cons, ← spans_length]
      by_cases opens : token.opensBrace = true
      · simp [Nest.step, opens]
        omega
      by_cases closes : token.closesBrace = true
      · simp only [Nest.step, opens, closes, if_true, if_false, Bool.false_eq_true]
        split <;> simp
      · simp [Nest.step, opens, closes]

end Goes

end Draft

namespace Token

theorem braceSpans_append (size : Nat) (front back : List Token) :
    (braceSpans size (front ++ back)).drop (front.countP opensBrace) = braceSpans size back := by
  induction front with
  | nil => rfl
  | cons token front ih =>
      rw [List.cons_append, braceSpans, List.countP_cons]
      by_cases opens : token.opensBrace = true
      · simp [opens, ih]
      · simp [opens, ih]

theorem closing?_append {depth : Nat} {tokens : List Token}
    (ahead : ∀ front, front <+: tokens → front.countP closesBrace ≤ depth + front.countP opensBrace)
    (rest : List Token) : closing? depth (tokens ++ rest) = closing? (depthBehind depth tokens) rest := by
  induction tokens generalizing depth with
  | nil => rfl
  | cons token tokens ih =>
      by_cases opens : token.opensBrace = true
      · simp only [List.cons_append, closing?, depthBehind, opens, if_true]
        apply ih
        intro front isFront
        have whole := ahead (token :: front) ((List.prefix_cons_inj token).mpr isFront)
        simp [opens, closesBrace_of_opensBrace opens] at whole
        omega
      by_cases closes : token.closesBrace = true
      · have first := ahead [token] (by simp)
        simp [opens, closes] at first
        obtain ⟨depth, rfl⟩ := Nat.exists_eq_succ_of_ne_zero (Nat.ne_of_gt first)
        simp only [List.cons_append, closing?, depthBehind, opens, closes, if_true, if_false,
          Bool.false_eq_true, Nat.succ_sub_one]
        apply ih
        intro front isFront
        have whole := ahead (token :: front) ((List.prefix_cons_inj token).mpr isFront)
        simp [opens, closes] at whole
        omega
      · simp only [List.cons_append, closing?, depthBehind, opens, closes, if_false, Bool.false_eq_true]
        apply ih
        intro front isFront
        have whole := ahead (token :: front) ((List.prefix_cons_inj token).mpr isFront)
        simpa [opens, closes] using whole

/-- Balanced tokens end at the brace that closes what is around them. -/
theorem Balanced.closing?_eq {tokens : List Token} (balanced : Balanced tokens) {brace : Token}
    (closes : brace.closesBrace = true) (rest : List Token) :
    closing? 0 (tokens ++ brace :: rest) = some brace := by
  have notOpen : brace.opensBrace = false :=
    Bool.eq_false_iff.mpr fun opens => by simp [closesBrace_of_opensBrace opens] at closes
  rw [closing?_append, balanced.depthBehind_eq]
  · simp [closing?, notOpen, closes]
  · intro front isFront
    have bound := balanced.ahead front ((List.mem_inits _ _).mpr isFront)
    omega

theorem stops_of_isBrace {before rest : List Token} {brace : Token} (isBrace : brace.isBrace = true) :
    stops before (brace :: rest) = ⟨before, brace, rest⟩ :: stops (brace :: before) rest := by
  have alone : stride before brace rest = 0 := by
    rw [Token.isBrace, Bool.or_eq_true] at isBrace
    rcases isBrace with opens | closes
    · rw [stride, Draft.step_of_opensBrace _ _ _ opens]
    · rw [stride, Draft.step_of_closesBrace _ _ _ closes]
  rw [stops, alone]
  rfl

end Token

namespace Outline

theorem span_of_getElem? {outline : Outline} {id : Nat} {span : Span}
    (found : (outline.scopes.toList.map (·.span))[id]? = some span) :
    id < outline.scopes.size ∧ (outline.scope id).span = span := by
  rw [List.getElem?_map, Option.map_eq_some_iff] at found
  obtain ⟨scope, found, rfl⟩ := found
  rw [Array.getElem?_toList] at found
  obtain ⟨bound, rfl⟩ := Array.getElem?_eq_some_iff.mp found
  refine ⟨bound, ?_⟩
  simp [Outline.scope, bound]

section Body

variable {text : String} {draft : Draft} {before body behind : List Token} {opening closing : Token}
  (goes : Draft.Goes (Draft.start (Text.byteLength text.toList)) [] (tokenize text) draft before
    (opening :: (body ++ closing :: behind)))
  (opens : opening.opensBrace = true) (balanced : Token.Balanced body)
  (closes : closing.closesBrace = true)
  (stopsAt : ∀ token ∈ opening :: (body ++ [closing]), token.isBrace = true →
    token ∈ (Token.stops [] (tokenize text)).map (·.token))

include goes opens balanced closes stopsAt

/-- The scope of a body ends where the body does. -/
theorem span_of_body :
    draft.scopes.size < (ofText text).scopes.size ∧
      ((ofText text).scope draft.scopes.size).span = Span.between opening.start closing.stop := by
  obtain ⟨spans, -⟩ := ofText_spans text
  have unique := tokenize_nodup text
  have whole : tokenize text = before.reverse ++ opening :: (body ++ closing :: behind) := goes.parts.1
  rw [whole] at goes stopsAt spans unique
  have uniqueHere := (List.nodup_append.mp unique).2.1
  have isBrace : opening.isBrace = true := by simp [Token.isBrace, opens]
  have stopsHere := @Token.stops_of_isBrace before (body ++ closing :: behind) opening isBrace
  -- The scope has the number of opening braces in front of its own.
  obtain ⟨passed, stopsEq, -⟩ := goes.stops
  have number : draft.scopes.size = (passed.map (·.token)).countP Token.opensBrace + 1 := by
    have count := goes.scopes_size
    have start : (Draft.start (Text.byteLength text.toList)).scopes.size = 1 := rfl
    rw [stopsEq, List.map_append, List.countP_append, start] at count
    omega
  -- The braces that reading stops at inside are those of the body.
  have inner (token : Token) (member : token ∈ body ++ [closing]) (isBrace : token.isBrace = true) :
      token ∈ (Token.stops (opening :: before) (body ++ closing :: behind)).map (·.token) := by
    have ahead : token ∈ body ++ closing :: behind := by
      rcases List.mem_append.mp member with inside | last
      · exact List.mem_append_left _ inside
      · exact List.mem_append_right _ (by simp_all)
    have isStop := goes.mem_stops unique (List.mem_cons_of_mem opening ahead)
      (stopsAt token (List.mem_cons_of_mem opening member) isBrace)
    rw [stopsHere, List.map_cons] at isStop
    refine (List.mem_cons.mp isStop).resolve_left ?_
    rintro rfl
    exact (List.nodup_cons.mp uniqueHere).1 ahead
  have last : closing.isBrace = true := by simp [Token.isBrace, closes]
  obtain ⟨next, within⟩ := Draft.Goes.to_stop draft (by simpa using unique) (inner closing (by simp) last)
  obtain ⟨inside, insideEq, braces⟩ := within.filter_stops (List.nodup_cons.mp uniqueHere).2
    fun token member => inner token (List.mem_append_left _ member)
  have closed : Token.closing? 0
      ((Token.stops (opening :: before) (body ++ closing :: behind)).map (·.token)) = some closing := by
    rw [insideEq, Token.stops_of_isBrace last, List.map_append, List.map_cons, ← Token.closing?_filter,
      List.filter_append, braces, ← List.filter_append, Token.closing?_filter]
    exact balanced.closing?_eq closes _
  apply span_of_getElem?
  rw [spans, number, List.getElem?_cons_succ, stopsEq, List.map_append, ← List.head?_drop,
    Token.braceSpans_append, stopsHere, List.map_cons, Token.braceSpans, if_pos opens, closed]
  rfl

/-- A name inside the body is read in the scope of the body or further inside. -/
theorem mem_ancestors_of_body {mention : Mention} (member : mention ∈ (ofText text).mentions)
    (starts : opening.start ≤ mention.chain.start) (ends : mention.chain.start < closing.start) :
    draft.scopes.size ∈ (ofText text).ancestors mention.scope := by
  obtain ⟨bound, span⟩ := span_of_body goes opens balanced closes stopsAt
  obtain ⟨positive, placed⟩ := (tokenize_inOrder text).inText closing (goes.parts.2.subset (by simp))
  have inText : mention.chain.start ≤ Text.byteLength text.toList := by omega
  have contains : ((ofText text).scope draft.scopes.size).span.Contains mention.chain.start := by
    rw [span]
    refine ⟨starts, Nat.lt_of_lt_of_le ends ?_⟩
    simp only [Span.between]
    omega
  have laminar := ofText_laminar text
  obtain ⟨known, inside, last⟩ := laminar.scopeAt_spec inText
  rw [ofText_scopeAt_mention member inText] at known inside last
  rcases Nat.eq_or_lt_of_le (last _ bound contains) with same | less
  · exact same ▸ mem_ancestors_self _ _
  · refine (laminar.apart _ _ less known).resolve_right fun behind => ?_
    have first := inside.1
    have second := contains.2
    omega

end Body

end Outline

end Requalify
