import Mathlib.Data.List.Infix
import Mathlib.Data.List.Nodup
import Mathlib.Data.List.Perm.Subperm
import Requalify.Proofs.Outline.Nest
import Requalify.Proofs.Token.Place

/-!
Scopes and braces. Each opening brace that reading stops at opens a scope, and the scope ends at the
brace that closes it. So the scopes of a file with balanced braces are the pairs of its braces if and only
if no brace is passed over.
-/

namespace Requalify

namespace Token

/-- The brace that closes the scope around `depth` open ones. -/
def closing? (depth : Nat) : List Token → Option Token
  | [] => none
  | token :: rest =>
      if token.opensBrace then closing? (depth + 1) rest
      else if token.closesBrace then
        match depth with
        | 0 => some token
        | depth + 1 => closing? depth rest
      else closing? depth rest

/-- Each opening brace with the brace that closes it. -/
def bracePairs : List Token → List (Token × Token)
  | [] => []
  | token :: rest =>
      (if token.opensBrace then (closing? 0 rest).toList.map (token, ·) else []) ++ bracePairs rest

/-- How many braces are open behind the tokens, with `depth` open ones in front of them. -/
def depthBehind (depth : Nat) : List Token → Nat
  | [] => depth
  | token :: rest =>
      depthBehind (if token.opensBrace then depth + 1 else if token.closesBrace then depth - 1 else depth)
        rest

/-- No brace closes before it is opened, and all are closed. -/
structure Balanced (tokens : List Token) : Prop where
  ahead : ∀ front ∈ tokens.inits, front.countP closesBrace ≤ front.countP opensBrace
  equal : tokens.countP closesBrace = tokens.countP opensBrace

instance (tokens : List Token) : Decidable (Balanced tokens) :=
  decidable_of_iff
    ((∀ front ∈ tokens.inits, front.countP closesBrace ≤ front.countP opensBrace) ∧
      tokens.countP closesBrace = tokens.countP opensBrace)
    ⟨fun ⟨ahead, equal⟩ => ⟨ahead, equal⟩, fun balanced => ⟨balanced.ahead, balanced.equal⟩⟩

/-- The spans of the scopes that the braces open; a scope that is not closed ends with the text. -/
def braceSpans (size : Nat) : List Token → List Span
  | [] => []
  | token :: rest =>
      if token.opensBrace then
        Span.between token.start (((closing? 0 rest).map stop).getD size) :: braceSpans size rest
      else braceSpans size rest

/-! Other tokens do not matter. -/

theorem closing?_filter (depth : Nat) (tokens : List Token) :
    closing? depth (tokens.filter isBrace) = closing? depth tokens := by
  induction tokens generalizing depth with
  | nil => rfl
  | cons token rest ih =>
      rw [List.filter_cons, isBrace]
      by_cases opens : token.opensBrace = true
      · simp [opens, closing?, ih]
      by_cases closes : token.closesBrace = true
      · cases depth with
        | zero => simp [opens, closes, closing?]
        | succ depth => simp [opens, closes, closing?, ih]
      · simp [opens, closes, closing?, ih]

theorem braceSpans_filter (size : Nat) (tokens : List Token) :
    braceSpans size (tokens.filter isBrace) = braceSpans size tokens := by
  induction tokens with
  | nil => rfl
  | cons token rest ih =>
      rw [List.filter_cons, isBrace]
      by_cases opens : token.opensBrace = true
      · simp [opens, braceSpans, closing?_filter, ih]
      by_cases closes : token.closesBrace = true
      · simp [opens, closes, braceSpans, ih]
      · simp [opens, closes, braceSpans, ih]

theorem depthBehind_filter (depth : Nat) (tokens : List Token) :
    depthBehind depth (tokens.filter isBrace) = depthBehind depth tokens := by
  induction tokens generalizing depth with
  | nil => rfl
  | cons token rest ih =>
      rw [List.filter_cons, isBrace]
      by_cases opens : token.opensBrace = true
      · simp [opens, depthBehind, ih]
      by_cases closes : token.closesBrace = true
      · simp [opens, closes, depthBehind, ih]
      · simp [opens, closes, depthBehind, ih]

/-! How the braces add up. -/

theorem braceSpans_length (size : Nat) (tokens : List Token) :
    (braceSpans size tokens).length = tokens.countP opensBrace := by
  induction tokens with
  | nil => rfl
  | cons token rest ih =>
      by_cases opens : token.opensBrace = true
      · simp [opens, braceSpans, ih]
      · simp [opens, braceSpans, ih]

theorem countP_isBrace (tokens : List Token) :
    tokens.countP isBrace = tokens.countP opensBrace + tokens.countP closesBrace := by
  induction tokens with
  | nil => rfl
  | cons token rest ih =>
      by_cases opens : token.opensBrace = true
      · simp [opens, closesBrace_of_opensBrace opens, isBrace, ih]
        omega
      by_cases closes : token.closesBrace = true
      · simp [opens, closes, isBrace, ih]
        omega
      · simp [opens, closes, isBrace, ih]

theorem le_depthBehind (depth : Nat) (tokens : List Token) :
    depth + tokens.countP opensBrace ≤ depthBehind depth tokens + tokens.countP closesBrace := by
  induction tokens generalizing depth with
  | nil => simp [depthBehind]
  | cons token rest ih =>
      rw [depthBehind, List.countP_cons, List.countP_cons]
      by_cases opens : token.opensBrace = true
      · have bound := ih (depth + 1)
        simp only [opens, closesBrace_of_opensBrace opens, if_true]
        simp
        omega
      by_cases closes : token.closesBrace = true
      · have bound := ih (depth - 1)
        simp only [opens, closes, if_true]
        simp
        omega
      · have bound := ih depth
        simp [opens, closes]
        omega

theorem depthBehind_of_ahead {depth : Nat} {tokens : List Token}
    (ahead : ∀ front, front <+: tokens → front.countP closesBrace ≤ depth + front.countP opensBrace) :
    depthBehind depth tokens + tokens.countP closesBrace = depth + tokens.countP opensBrace := by
  induction tokens generalizing depth with
  | nil => simp [depthBehind]
  | cons token rest ih =>
      have first := ahead [token] (by simp)
      rw [depthBehind, List.countP_cons, List.countP_cons]
      by_cases opens : token.opensBrace = true
      · have closes := closesBrace_of_opensBrace opens
        have bound := @ih (depth + 1) fun front isFront => by
          have whole := ahead (token :: front) ((List.prefix_cons_inj token).mpr isFront)
          simp [opens, closes] at whole
          omega
        simp only [opens, closes, if_true]
        simp
        omega
      by_cases closes : token.closesBrace = true
      · simp [opens, closes] at first
        have bound := @ih (depth - 1) fun front isFront => by
          have whole := ahead (token :: front) ((List.prefix_cons_inj token).mpr isFront)
          simp [opens, closes] at whole
          omega
        simp only [opens, closes, if_true]
        simp
        omega
      · have bound := @ih depth fun front isFront => by
          have whole := ahead (token :: front) ((List.prefix_cons_inj token).mpr isFront)
          simpa [opens, closes] using whole
        simp [opens, closes]
        omega

theorem closing?_isSome {depth : Nat} {tokens : List Token}
    (more : depth + tokens.countP opensBrace < tokens.countP closesBrace) :
    (closing? depth tokens).isSome = true := by
  induction tokens generalizing depth with
  | nil => simp at more
  | cons token rest ih =>
      unfold closing?
      by_cases opens : token.opensBrace = true
      · simp only [opens, if_true]
        refine ih ?_
        simp [opens, closesBrace_of_opensBrace opens] at more
        omega
      by_cases closes : token.closesBrace = true
      · cases depth with
        | zero => simp [opens, closes]
        | succ depth =>
            simp only [opens, closes, if_true]
            simp [opens, closes] at more
            simpa using ih (by omega)
      · simp [opens, closes] at more
        simpa [opens, closes] using ih more

/-- If enough braces follow, all scopes are closed. -/
theorem braceSpans_of_closed {size : Nat} {tokens : List Token}
    (closed : ∀ back, back <:+ tokens → back.countP opensBrace ≤ back.countP closesBrace) :
    braceSpans size tokens =
      (bracePairs tokens).map fun pair => Span.between pair.1.start pair.2.stop := by
  induction tokens with
  | nil => rfl
  | cons token rest ih =>
      have others := ih fun back isBack => closed back (isBack.trans (List.suffix_cons token rest))
      rw [braceSpans, bracePairs, others, List.map_append]
      by_cases opens : token.opensBrace = true
      · have whole := closed (token :: rest) (List.suffix_refl _)
        simp [opens, closesBrace_of_opensBrace opens] at whole
        obtain ⟨close, found⟩ := Option.isSome_iff_exists.mp
          (@closing?_isSome 0 rest (by omega))
        simp [opens, found]
      · simp [opens]

namespace Balanced

variable {tokens : List Token} (balanced : Balanced tokens)

include balanced

theorem closed {back : List Token} (isBack : back <:+ tokens) :
    back.countP opensBrace ≤ back.countP closesBrace := by
  obtain ⟨front, rfl⟩ := isBack
  have ahead := balanced.ahead front ((List.mem_inits _ _).mpr (List.prefix_append _ _))
  have equal := balanced.equal
  rw [List.countP_append, List.countP_append] at equal
  omega

theorem depthBehind_eq : depthBehind 0 tokens = 0 := by
  have equal := balanced.equal
  have sum := @depthBehind_of_ahead 0 tokens fun front isFront => by
    have ahead := balanced.ahead front ((List.mem_inits _ _).mpr isFront)
    omega
  omega

theorem braceSpans_eq (size : Nat) : braceSpans size tokens =
    (bracePairs tokens).map fun pair => Span.between pair.1.start pair.2.stop :=
  braceSpans_of_closed fun _ => balanced.closed

end Balanced

end Token

namespace Nest

open Token

/-- The spans of the scopes behind the tokens; those in `opened`, innermost first, are open in front of
them, with `depth` scopes inside the first one. -/
def settle (tokens : List Token) (depth : Nat) (spans : List Span) : List Nat → List Span
  | [] => spans
  | inner :: outer =>
      let spans := match closing? depth tokens with
        | some close => spans.modify inner fun span => Span.between span.start close.stop
        | none => spans
      settle tokens (depth + 1) spans outer

section Settle

variable {token : Token} {rest : List Token} (depth : Nat) (spans : List Span) (opened : List Nat)

theorem settle_congr {tokens others : List Token} {depth shifted : Nat}
    (same : ∀ more, closing? (depth + more) tokens = closing? (shifted + more) others) :
    settle tokens depth spans opened = settle others shifted spans opened := by
  induction opened generalizing depth shifted spans with
  | nil => rfl
  | cons inner outer ih =>
      have here := same 0
      rw [Nat.add_zero, Nat.add_zero] at here
      rw [settle, settle, here]
      refine ih _ fun more => ?_
      rw [Nat.add_assoc, Nat.add_assoc]
      exact same (1 + more)

theorem settle_nil : settle [] depth spans opened = spans := by
  induction opened generalizing depth with
  | nil => rfl
  | cons inner outer ih => exact ih _

theorem modify_front {change : Span → Span} {front : List Span} (back : List Span) {index : Nat}
    (bound : index < front.length) :
    (front ++ back).modify index change = front.modify index change ++ back := by
  induction front generalizing index with
  | nil => simp at bound
  | cons span front ih =>
      cases index with
      | zero => rfl
      | succ index => simpa using ih (by simpa using bound)

theorem settle_append {spans : List Span} {opened : List Nat} (tokens : List Token) (more : List Span)
    (known : ∀ id ∈ opened, id < spans.length) :
    settle tokens depth (spans ++ more) opened = settle tokens depth spans opened ++ more := by
  induction opened generalizing depth spans with
  | nil => rfl
  | cons inner outer ih =>
      obtain ⟨bound, known⟩ := List.forall_mem_cons.mp known
      rw [settle, settle]
      cases closing? depth tokens with
      | none => exact ih _ known
      | some close =>
          simp only
          rw [modify_front more bound]
          exact ih _ fun id member => by simpa using known id member

end Settle

section Step

variable {token : Token} {rest : List Token}

theorem settle_open (opens : token.opensBrace = true) {spans : List Span} {opened : List Nat}
    (size : Nat) (known : ∀ id ∈ opened, id < spans.length) :
    settle rest 0 (spans ++ [Span.between token.start size]) (spans.length :: opened) =
      settle (token :: rest) 0 spans opened ++
        [Span.between token.start (((closing? 0 rest).map stop).getD size)] := by
  have inner : (match closing? 0 rest with
      | some close => (spans ++ [Span.between token.start size]).modify spans.length fun span =>
          Span.between span.start close.stop
      | none => spans ++ [Span.between token.start size]) =
        spans ++ [Span.between token.start (((closing? 0 rest).map stop).getD size)] := by
    cases closing? 0 rest with
    | none => rfl
    | some close => simp [List.modify_eq_take_drop, Span.between]
  rw [settle, inner, settle_append 1 rest _ known]
  congr 1
  refine settle_congr spans opened fun more => ?_
  rw [Nat.zero_add, Nat.add_comm]
  simp [closing?, opens]

theorem settle_close (opens : token.opensBrace = false) (closes : token.closesBrace = true)
    (spans : List Span) (inner : Nat) (outer : List Nat) :
    settle rest 0 (spans.modify inner fun span => Span.between span.start token.stop) outer =
      settle (token :: rest) 0 spans (inner :: outer) := by
  have here : closing? 0 (token :: rest) = some token := by simp [closing?, opens, closes]
  rw [settle, here]
  refine settle_congr _ outer fun more => ?_
  rw [Nat.zero_add, Nat.add_comm]
  simp [closing?, opens, closes]

theorem settle_other (other : token.isBrace = false) (spans : List Span) (opened : List Nat) :
    settle rest 0 spans opened = settle (token :: rest) 0 spans opened := by
  rw [isBrace, Bool.or_eq_false_iff] at other
  refine settle_congr spans opened fun more => ?_
  simp [closing?, other]

end Step

/-- What the braces of the tokens make of a nest. -/
theorem foldl_step (tokens : List Token) {nest : Nest} {opened : List Nat} {file : Nat}
    (isOpened : nest.opened = opened ++ [file]) (known : ∀ id ∈ opened, id < nest.spans.length) :
    (tokens.foldl step nest).spans =
        settle tokens 0 nest.spans opened ++ braceSpans nest.size tokens ∧
      (tokens.foldl step nest).opened.length = depthBehind opened.length tokens + 1 := by
  induction tokens generalizing nest opened with
  | nil => simp [settle_nil, braceSpans, depthBehind, isOpened]
  | cons token rest ih =>
      rw [List.foldl_cons, braceSpans, depthBehind]
      by_cases opens : token.opensBrace = true
      · have stepEq : nest.step token =
            ⟨nest.size, nest.spans ++ [Span.between token.start nest.size],
              nest.spans.length :: nest.opened⟩ := if_pos opens
        obtain ⟨spans, length⟩ := @ih (nest.step token)
          (nest.spans.length :: opened) (by simp [stepEq, isOpened]) (by
            rw [stepEq, List.forall_mem_cons]
            exact ⟨by simp, fun id member => by simpa using Nat.lt_succ_of_lt (known id member)⟩)
        simp only [stepEq] at spans length ⊢
        rw [spans, if_pos opens, if_pos opens, settle_open opens nest.size known, length]
        simp
      rw [Bool.not_eq_true] at opens
      rw [opens, if_neg (by decide), if_neg (by decide)]
      by_cases closes : token.closesBrace = true
      · rw [closes, if_pos rfl]
        cases opened with
        | nil =>
            have stepEq : nest.step token = nest := by simp [step, opens, closes, isOpened]
            obtain ⟨spans, length⟩ := ih isOpened known
            rw [stepEq]
            exact ⟨spans, length⟩
        | cons inner outer =>
            obtain ⟨around, others, openedEq⟩ : ∃ around others, outer ++ [file] = around :: others := by
              cases outer with
              | nil => exact ⟨file, [], rfl⟩
              | cons around others => exact ⟨around, others ++ [file], rfl⟩
            have stepEq : nest.step token =
                ⟨nest.size, nest.spans.modify inner fun span => Span.between span.start token.stop,
                  outer ++ [file]⟩ := by
              simp [step, opens, closes, isOpened, openedEq]
            obtain ⟨spans, length⟩ := @ih (nest.step token) outer (by rw [stepEq])
              (by
                rw [stepEq]
                exact fun id member => by simpa using known id (List.mem_cons_of_mem inner member))
            simp only [stepEq] at spans length ⊢
            exact ⟨by rw [spans, settle_close opens closes], length⟩
      · rw [Bool.not_eq_true] at closes
        have other : token.isBrace = false := by rw [isBrace, opens, closes]; rfl
        rw [step_of_other other, closes, if_neg (by decide), ← settle_other other]
        exact ih isOpened known

end Nest

theorem Outline.ofText_spans (text : String) :
    let size := Text.byteLength text.toList
    let stops := (Token.stops [] (tokenize text)).map (·.token)
    (Outline.ofText text).scopes.toList.map (·.span) =
        Span.between 0 (size + 1) :: Token.braceSpans size stops ∧
      (Outline.ofText text).unclosed = Token.depthBehind 0 stops := by
  intro size stops
  let draft := (Draft.start size).readFrom [] (tokenize text)
  have nest : draft.nest = stops.foldl Nest.step (Draft.start size).nest := by
    rw [List.foldl_map]
    exact Draft.readFrom_foldl Draft.nest (fun nest stop => nest.step stop.token)
      (fun draft stop => draft.step_nest stop.before stop.token stop.rest) _ _ _
  obtain ⟨spans, opened⟩ := @Nest.foldl_step stops (Draft.start size).nest [] 0 rfl (by simp)
  rw [← nest] at spans opened
  have unclosed : draft.outer.length = Token.depthBehind 0 stops := by
    simpa [Draft.nest] using opened
  exact ⟨spans, unclosed⟩

theorem tokenize_nodup (text : String) : (tokenize text).Nodup := by
  have ordered : (tokenize text).Pairwise fun left right => left.start < right.start := by
    refine (tokenize_pairwise text).imp_of_mem fun {left right} member _ apart => ?_
    obtain ⟨front, behind, parts⟩ := List.append_of_mem member
    have positive := (tokenize_placed ⟨front, parts.symm⟩).start_lt_stop
    omega
  exact ordered.imp fun {left right} apart same => by
    rw [same] at apart
    exact Nat.lt_irrefl _ apart

/-- Reading passes over no brace. -/
def Token.StopsAtBraces (tokens : List Token) : Prop :=
  ∀ token ∈ tokens, token.isBrace = true → token ∈ (stops [] tokens).map (·.token)

instance (tokens : List Token) : Decidable (Token.StopsAtBraces tokens) :=
  inferInstanceAs (Decidable (∀ token ∈ tokens, _ → _))

theorem Token.filter_stops {text : String} (stopsAt : StopsAtBraces (tokenize text)) :
    ((stops [] (tokenize text)).map (·.token)).filter isBrace = (tokenize text).filter isBrace := by
  have fewer := (stops_sublist [] (tokenize text)).filter isBrace
  refine fewer.eq_of_length_le ?_
  refine (List.subperm_of_subset ((tokenize_nodup text).filter isBrace) ?_).length_le
  intro token member
  obtain ⟨known, brace⟩ := List.mem_filter.mp member
  exact List.mem_filter.mpr ⟨stopsAt token known brace, brace⟩

end Requalify
