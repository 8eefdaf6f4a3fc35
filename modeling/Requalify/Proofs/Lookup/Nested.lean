import Requalify.Proofs.Lookup.Unfolded
import Requalify.Proofs.Outline.Nesting

/-!
Nested namespaces in one definition or in several. Both forms are read alike but for the scopes of the outer
names, which only the second one has. Lookup walks the scopes, so what it finds in those of the outer names it
does not find where the names are written in one definition.
-/

namespace Requalify

namespace Token

/-! Where the texts differ. -/

theorem not_isGroupMark {token : Token} {text : String} (mark : token.kind = .punctuator → token.text = text)
    (other : text ≠ "(" ∧ text ≠ ")" ∧ text ≠ "[" ∧ text ≠ "]") : token.isGroupMark = false := by
  obtain ⟨first, second, third, fourth⟩ := other
  by_cases kind : token.kind = .punctuator
  · simp [isGroupMark, isPunctuator, mark kind, first, second, third, fourth]
  · simp [isGroupMark, isPunctuator, kind]

theorem mark_of_compactHead {names : List String} {lexeme : TokenKind × String}
    (member : lexeme ∈ compactHead names) (kind : lexeme.1 = .punctuator) : lexeme.2 = "\x7b" := by
  rcases List.mem_cons.mp member with rfl | member
  · simp at kind
  rcases List.mem_append.mp member with member | member
  · cases names with
    | nil => simp [joinedNames] at member
    | cons first names =>
        rcases List.mem_cons.mp member with rfl | member
        · simp at kind
        · obtain ⟨name, -, member⟩ := List.mem_flatMap.mp member
          rcases List.mem_pair.mp member with rfl | rfl <;> simp at kind
  · rw [List.mem_singleton.mp member]

theorem no_mark_of_compactHead {names : List String} {head : List Token}
    (headed : head.map lexeme = compactHead names) : ∀ token ∈ head, token.isGroupMark = false := by
  intro token member
  have known : token.lexeme ∈ compactHead names := headed ▸ List.mem_map_of_mem member
  exact not_isGroupMark (mark_of_compactHead known) (by decide)

theorem no_mark_of_nestedHeads {names : List String} {heads : List Token}
    (headed : heads.map lexeme = nestedHeads names) : ∀ token ∈ heads, token.isGroupMark = false := by
  intro token member
  have known : token.lexeme ∈ nestedHeads names := headed ▸ List.mem_map_of_mem member
  obtain ⟨name, -, inside⟩ := List.mem_flatMap.mp known
  exact not_isGroupMark (mark_of_compactHead inside) (by decide)

/-- The last token of the heads is a brace. -/
theorem exists_brace_of_nestedHeads {names : List String} (isName : names ≠ []) {heads : List Token}
    (headed : heads.map lexeme = nestedHeads names) :
    ∃ back brace, heads = back ++ [brace] ∧ brace.lexeme = (.punctuator, "\x7b") := by
  obtain ⟨front, name, rfl⟩ := (List.eq_nil_or_concat names).resolve_left isName
  have ends : heads.map lexeme =
      nestedHeads front ++ [(.keyword, "namespace"), (.identifier, name)] ++ [(.punctuator, "\x7b")] := by
    simp [headed, nestedHeads, compactHead, joinedNames]
  obtain ⟨back, last, rfl, -, isLast⟩ := List.map_eq_append_iff.mp ends
  obtain ⟨brace, rest, rfl, isBrace, nothing⟩ := List.map_eq_cons_iff.mp isLast
  obtain rfl : rest = [] := by simpa using nothing
  exact ⟨back, brace, rfl, isBrace⟩

theorem borders_heads {names : List String} (isName : names ≠ []) {head heads : List Token}
    (compactly : head.map lexeme = compactHead names) (nested : heads.map lexeme = nestedHeads names) :
    Borders head heads := by
  obtain ⟨name, names, rfl⟩ := List.exists_cons_of_ne_nil isName
  refine ⟨?_, no_mark_of_compactHead compactly, no_mark_of_nestedHeads nested⟩
  obtain ⟨keyword, tail, rfl, isKeyword, -⟩ := List.map_eq_cons_iff.mp compactly
  obtain ⟨keyword', tail', rfl, isKeyword', -⟩ := List.map_eq_cons_iff.mp nested
  refine ⟨keyword, keyword', tail, tail', rfl, rfl, ?_, isKeyword'.trans isKeyword.symm⟩
  rw [isWall, isKeyword_of_eq isKeyword, Bool.true_or]

theorem borders_closing {closing : Token} (closes : closing.closesBrace = true) {braces : List Token}
    {count : Nat} (lexemes : braces.map lexeme = List.replicate count closing.lexeme) (more : count ≠ 0) :
    Borders [closing] braces := by
  have spelled (token : Token) (member : token ∈ braces) : token.lexeme = closing.lexeme :=
    List.eq_of_mem_replicate (lexemes ▸ List.mem_map_of_mem member)
  obtain ⟨kind, text⟩ : closing.kind = .punctuator ∧ closing.text = "\x7d" := by
    simpa [closesBrace, isPunctuator] using closes
  have noMark {token : Token} (same : token.lexeme = closing.lexeme) : token.isGroupMark = false :=
    not_isGroupMark (fun _ => (text_of_lexeme same).trans text) (by decide)
  refine ⟨?_, by simpa using noMark rfl, fun token member => noMark (spelled token member)⟩
  cases braces with
  | nil =>
      obtain ⟨count, rfl⟩ := Nat.exists_eq_succ_of_ne_zero more
      simp [List.replicate_succ] at lexemes
  | cons brace braces =>
      refine ⟨closing, brace, [], braces, rfl, rfl, ?_, spelled brace List.mem_cons_self⟩
      have closes : closing.isPunctuator "\x7d" = true := closes
      rw [isWall, closes, Bool.or_true]

end Token

/-- Two texts that end with a nested namespace: the compact one with a single definition for all names, and
the expanded one with a definition for each name. Reading comes to the compact definition and to its last brace,
and the braces of the body at which it stops are balanced. -/
structure Nesting (compact expanded : String) (names : List String) (draft : Draft)
    (before head body : List Token) (closing : Token) : Prop where
  goes : Draft.Goes (Draft.start (Text.byteLength compact.toList)) [] (tokenize compact) draft before
    (head ++ (body ++ [closing]))
  isName : names ≠ []
  headed : head.map Token.lexeme = compactHead names
  closes : closing.closesBrace = true
  ends : closing ∈ (Token.stops [] (tokenize compact)).map (·.token)
  balanced : Token.Balanced (body.filter (· ∈ (Token.stops [] (tokenize compact)).map (·.token)))
  expands : (tokenize expanded).map Token.lexeme =
    before.reverse.map Token.lexeme ++ (nestedHeads names ++
      (body.map Token.lexeme ++ List.replicate names.length closing.lexeme))

namespace Draft

/-- Both texts begin alike. -/
theorem start_beside (unfolding : Unfolding) (known : 0 < unfolding.scope) (size size' : Nat) :
    (start size).Beside unfolding ⟨0, 0, [], [], 0⟩ [] (start size') [] := by
  refine ⟨⟨0, ?_⟩, .start⟩
  exact {
    size := rfl
    scopes := fun id bound => by
      obtain rfl : id = 0 := by simpa [start] using bound
      rw [unfolding.move_of_lt known]
      exact ⟨rfl, rfl, fun _ => rfl⟩
    declarations := rfl
    bindings := rfl
    usings := .nil
    mentions := .nil
    opening := rfl
    parked := rfl
    frame := ⟨(unfolding.move_of_lt known).symm, rfl, rfl, rfl, .none, rfl, rfl⟩
    outer := ⟨[], [], rfl, rfl, .nil, rfl, rfl⟩ }

variable {draft next last : Draft} {opened : List (String × Bool)} {brace : Token}
  {before ahead behind left : List Token}

/-- The scope of a definition keeps its kind and its parent while more is read. -/
theorem Goes.entered_kept (goes : Goes (draft.enter opened brace) before ahead last behind left) :
    draft.scopes.size < last.scopes.size ∧
      (last.finish.scope draft.scopes.size).shape = (draft.entered opened brace).shape := by
  obtain ⟨_, _, enterEq⟩ := draft.enter_eq opened brace
  have pushed : (draft.enter opened brace).scopes = draft.scopes.push (draft.entered opened brace) := by
    rw [enterEq]
  have known : draft.scopes.size < (draft.enter opened brace).scopes.size := by
    rw [pushed, Array.size_push]
    exact Nat.lt_succ_self _
  exact ⟨Nat.lt_of_lt_of_le known goes.size_le, by rw [goes.shape known, scope_push pushed, if_pos rfl]⟩

/-- So do the scopes of definitions one inside the other. -/
theorem Nested.kept (nested : draft.Nested opened next) (more : opened ≠ [])
    (goes : Goes next before ahead last behind left) :
    (last.finish.scope draft.scopes.size).parent = some draft.frame.scope ∧
      ∀ level, draft.scopes.size ≤ level → level + 1 < next.scopes.size →
        (last.finish.scope (level + 1)).parent = some level ∧
          ∃ isInline, (last.finish.scope level).kind = .named isInline := by
  have known : draft.scopes.size < next.scopes.size := by
    rw [nested.size]
    exact Nat.lt_add_of_pos_right (List.length_pos_iff.mpr more)
  have parent {id : Nat} (known : id < next.scopes.size) :
      (last.finish.scope id).parent = (next.finish.scope id).parent := congrArg (·.2.1) (goes.shape known)
  refine ⟨(parent known).trans nested.first, fun level atLeast less => ?_⟩
  obtain ⟨isInline, kind⟩ := nested.named level atLeast (Nat.lt_of_succ_lt less)
  have sameKind : (last.finish.scope level).kind = (next.finish.scope level).kind :=
    congrArg (·.1) (goes.shape (Nat.lt_of_succ_lt less))
  exact ⟨(parent less).trans (nested.within level atLeast less), isInline, sameKind.trans kind⟩

end Draft

theorem length_openedNames (isInline : Bool) (names : List String) :
    (openedNames isInline names).length = names.length := by
  cases names <;> simp [openedNames]

/-- The tokens of the expanded text. -/
structure Nesting.Parts (expanded : String) (names : List String) (before body : List Token) (closing : Token)
    (front heads inner braces : List Token) : Prop where
  tokens : tokenize expanded = front ++ (heads ++ (inner ++ braces))
  front : front.map Token.lexeme = before.reverse.map Token.lexeme
  heads : heads.map Token.lexeme = nestedHeads names
  inner : inner.map Token.lexeme = body.map Token.lexeme
  braces : braces.map Token.lexeme = List.replicate names.length closing.lexeme

namespace Nesting

namespace Parts

variable {expanded : String} {names : List String} {before body : List Token} {closing : Token}
  {front heads inner braces : List Token}
  (parts : Parts expanded names before body closing front heads inner braces)

include parts

theorem length_front : front.length = before.reverse.length := by
  have same := congrArg List.length parts.front
  simpa using same

theorem length_inner : inner.length = body.length := by
  have same := congrArg List.length parts.inner
  simpa using same

theorem closes (closing' : closing.closesBrace = true) :
    ∀ brace ∈ braces, brace.closesBrace = true := by
  intro brace member
  have same : brace.lexeme = closing.lexeme :=
    List.eq_of_mem_replicate (parts.braces ▸ List.mem_map_of_mem member)
  exact (Token.isPunctuator_of_lexeme same _).trans closing'

end Parts

variable {compact expanded : String} {names : List String} {draft : Draft} {before head body : List Token}
  {closing : Token} (nesting : Nesting compact expanded names draft before head body closing)

include nesting

theorem tokens : tokenize compact = before.reverse ++ (head ++ (body ++ [closing])) := by
  simpa using nesting.goes.parts.1

/-- The expanded text falls into what is the same and what is not. -/
theorem exists_parts : ∃ front heads inner braces,
    Parts expanded names before body closing front heads inner braces := by
  obtain ⟨front, rest, tokens, isFront, others⟩ := List.map_eq_append_iff.mp nesting.expands
  obtain ⟨heads, rest, rfl, headed, others⟩ := List.map_eq_append_iff.mp others
  obtain ⟨inner, braces, rfl, inside, ends⟩ := List.map_eq_append_iff.mp others
  exact ⟨front, heads, inner, braces, tokens, isFront, headed, inside, ends⟩

section Parts

variable {front heads inner braces : List Token}
  (parts : Parts expanded names before body closing front heads inner braces)

include parts

/-- The scopes of the outer names are added, and what stands in front of the heads and behind them is the
same. -/
def unfolding : Unfolding where
  scope := draft.scopes.size
  more := names.length - 1
  same := Token.Paired (before.reverse ++ body) (front ++ inner)
  ascends := by
    refine Token.Paired.ascends ?_ ?_
    · refine List.Pairwise.sublist (List.Sublist.map _ ?_) (tokenize_ascends compact)
      rw [nesting.tokens]
      exact (List.Sublist.refl _).append
        ((List.sublist_append_left _ _).trans (List.sublist_append_right _ _))
    · refine List.Pairwise.sublist (List.Sublist.map _ ?_) (tokenize_ascends expanded)
      rw [parts.tokens]
      exact (List.Sublist.refl _).append
        ((List.sublist_append_left _ _).trans (List.sublist_append_right _ _))

theorem length_names : names.length = (nesting.unfolding parts).more + 1 :=
  (Nat.sub_add_cancel (List.length_pos_iff.mpr nesting.isName)).symm

theorem alike : List.Forall₂ (Token.Alike (nesting.unfolding parts).same) before.reverse front ∧
    List.Forall₂ (Token.Alike (nesting.unfolding parts).same) body inner := by
  have whole : List.Forall₂ (Token.Alike (nesting.unfolding parts).same)
      (before.reverse ++ body) (front ++ inner) :=
    Token.alike_of_paired (by rw [List.map_append, List.map_append, parts.front, parts.inner])
  have first := List.forall₂_take_append _ _ _ whole
  have second := List.forall₂_drop_append _ _ _ whole
  rw [parts.length_front, List.take_left] at first
  rw [parts.length_front, List.drop_left] at second
  exact ⟨first, second⟩

theorem ahead_body : Token.Ahead (nesting.unfolding parts).same body.length (body ++ [closing])
    (inner ++ braces) := by
  have borders := Token.borders_closing nesting.closes parts.braces
    (List.length_pos_iff.mpr nesting.isName).ne'
  have ends : Token.Ahead (nesting.unfolding parts).same 0 [closing] braces := by
    simpa using Token.Ahead.border borders .done
  exact .append (nesting.alike parts).2 ends

theorem ahead_front : Token.Ahead (nesting.unfolding parts).same before.reverse.length
    (before.reverse ++ (head ++ (body ++ [closing]))) (front ++ (heads ++ (inner ++ braces))) :=
  .append (nesting.alike parts).1
    (.border (Token.borders_heads nesting.isName nesting.headed parts.heads) (nesting.ahead_body parts))

/-- Up to the heads the texts are read alike. -/
theorem reads_front : ∃ draft', Draft.Goes (Draft.start (Text.byteLength expanded.toList)) []
      (tokenize expanded) draft' front.reverse (heads ++ (inner ++ braces)) ∧
    draft.Beside (nesting.unfolding parts) ⟨0, 0, [], [], 0⟩ before draft' front.reverse := by
  have goes := nesting.goes
  rw [nesting.tokens] at goes
  have known : 0 < (nesting.unfolding parts).scope := Nat.lt_of_lt_of_le Nat.one_pos goes.size_le
  obtain ⟨draft', goes', beside⟩ := goes.beside (by simp)
    (Draft.start_beside _ known (Text.byteLength compact.toList) (Text.byteLength expanded.toList))
    (nesting.ahead_front parts) parts.length_front (fun _ _ => Nat.zero_le _) (fun _ _ => Nat.zero_le _)
    (fun size _ less => (nesting.unfolding parts).move_of_lt less) (fun _ _ _ _ _ _ _ => .inl ⟨rfl, rfl⟩)
  rw [List.append_nil] at goes' beside
  exact ⟨draft', parts.tokens ▸ goes', beside⟩

/-- Behind the heads the texts go on alike. -/
theorem reads_heads :
    let opened := openedNames (Token.startsWithKeyword before "inline") names
    ∃ brace low' draft' next,
      Draft.Goes draft before (head ++ (body ++ [closing])) (draft.enter opened brace)
          (head.reverse ++ before) (body ++ [closing]) ∧
        Draft.Goes (Draft.start (Text.byteLength expanded.toList)) [] (tokenize expanded) next
          (heads.reverse ++ front.reverse) (inner ++ braces) ∧
        draft.Beside (nesting.unfolding parts) ⟨0, 0, [], [], 0⟩ before draft' front.reverse ∧
        draft'.Nested opened next ∧
        (draft.enter opened brace).Beside (nesting.unfolding parts)
          ⟨brace.start, low', draft.frame :: draft.outer, next.outer, (nesting.unfolding parts).more⟩
          (head.reverse ++ before) next (heads.reverse ++ front.reverse) ∧
        (∀ token ∈ body, brace.start ≤ token.start) ∧ ∀ token ∈ inner, low' ≤ token.start := by
  intro opened
  obtain ⟨draft', goes', beside⟩ := nesting.reads_front parts
  obtain ⟨keyword, tail, headEq, isKeyword, lexemes⟩ := List.map_eq_cons_iff.mp nesting.headed
  obtain ⟨joined, last, rfl, isJoined, lexemes⟩ := List.map_eq_append_iff.mp lexemes
  obtain ⟨brace, nothing, rfl, isBrace, lexemes⟩ := List.map_eq_cons_iff.mp lexemes
  obtain rfl : nothing = [] := by simpa using lexemes
  obtain ⟨back, brace', headsEq, isBrace'⟩ := Token.exists_brace_of_nestedHeads nesting.isName parts.heads
  have opens : brace.opensBrace = true := Token.isPunctuator_of_eq isBrace
  have entered := draft.goes_enter isJoined nesting.isName opens (Token.isKeyword_of_eq isKeyword) before
    (body ++ [closing])
  obtain ⟨next, through, nested⟩ := draft'.goes_nested nesting.isName parts.heads front.reverse
    (inner ++ braces)
  have same : Token.startsWithKeyword front.reverse "inline" = Token.startsWithKeyword before "inline" :=
    Token.startsWithKeyword_of_head? beside.behind.head?_lexeme "inline"
  rw [same] at nested
  obtain ⟨depth, follows⟩ := beside.follows
  have count : opened.length = (nesting.unfolding parts).more + 1 := by
    rw [length_openedNames, nesting.length_names parts]
  have inside := follows.enter rfl rfl count nested brace brace'.start
  have behind : Token.Behind (nesting.unfolding parts).same brace.start brace'.start
      (head.reverse ++ before) (heads.reverse ++ front.reverse) := by
    refine .fence ⟨?_, ?_, ?_⟩ ?_
    · refine ⟨brace, brace', joined.reverse ++ [keyword], back.reverse, by simp [headEq],
        by simp [headsEq], opens, isBrace'.trans isBrace.symm, Nat.le_refl _, Nat.le_refl _⟩
    · simpa using Token.no_mark_of_compactHead nesting.headed
    · simpa using Token.no_mark_of_nestedHeads parts.heads
    · rw [List.map_reverse, parts.front, List.map_reverse, List.reverse_reverse]
  refine ⟨brace, brace'.start, draft', next, ?_, goes'.trans through, beside, nested,
    ⟨⟨0, inside⟩, behind⟩, ?_, ?_⟩
  · rw [headEq]
    simpa using entered
  · intro token member
    have whole : tokenize compact = (before.reverse ++ keyword :: joined) ++ brace :: (body ++ [closing]) := by
      simp [nesting.tokens, headEq]
    exact tokenize_later whole (List.mem_append_left _ member)
  · intro token member
    have whole : tokenize expanded = (front ++ back) ++ brace' :: (inner ++ braces) := by
      simp [parts.tokens, headsEq]
    exact tokenize_later whole (List.mem_append_left _ member)

omit parts in
/-- Reading of the compact text comes to the last brace. -/
theorem reads_body {entered : Draft}
    (inside : Draft.Goes draft before (head ++ (body ++ [closing])) entered (head.reverse ++ before)
      (body ++ [closing])) :
    Token.Balanced (body.filter
        (· ∈ (Token.stops (head.reverse ++ before) (body ++ [closing])).map (·.token))) ∧
      ∃ last, Draft.Goes entered (head.reverse ++ before) (body ++ [closing]) last
        (body.reverse ++ (head.reverse ++ before)) [closing] := by
  have whole := nesting.goes.trans inside
  have unique := tokenize_nodup compact
  have balanced := nesting.balanced
  have ends := nesting.ends
  have regroup : tokenize compact = (before.reverse ++ head) ++ (body ++ [closing]) := by
    rw [nesting.tokens, List.append_assoc]
  rw [regroup] at whole unique balanced ends
  constructor
  · rwa [← List.filter_congr fun token member => ?_] at balanced
    obtain ⟨passed, stopsEq, -⟩ := whole.stops
    refine decide_eq_decide.mpr ⟨fun isStop => ?_, fun isStop => ?_⟩
    · rw [stopsEq, List.map_append]
      exact List.mem_append_right _ isStop
    · exact whole.mem_stops unique (List.mem_append_left _ member) isStop
  · exact Draft.Goes.to_stop entered (by simpa using unique) (whole.mem_stops unique (by simp) ends)

/-- The outlines of both texts say the same. -/
theorem unfolds : (Outline.ofText compact).Unfolds (nesting.unfolding parts) (Outline.ofText expanded) := by
  obtain ⟨brace, low', draft', next, inside, goes', ⟨⟨_, start⟩, -⟩, nested, beside, low, lowInner⟩ :=
    nesting.reads_heads parts
  have count : (openedNames (Token.startsWithKeyword before "inline") names).length =
      (nesting.unfolding parts).more + 1 := by
    rw [length_openedNames, nesting.length_names parts]
  generalize openedNames (Token.startsWithKeyword before "inline") names = opened at *
  obtain ⟨balanced, last, inBody⟩ := nesting.reads_body inside
  have unique : (body ++ [closing]).Nodup := by
    have whole := tokenize_nodup compact
    rw [nesting.tokens] at whole
    exact (List.nodup_append.mp (List.nodup_append.mp whole).2.1).2.1
  have around : (draft.enter opened brace).outer = draft.frame :: draft.outer := by
    obtain ⟨_, _, enterEq⟩ := draft.enter_eq opened brace
    rw [enterEq]
  have deeper : draft.scopes.size < (draft.enter opened brace).scopes.size :=
    (Draft.Goes.entered_kept (.stay _ [] [])).1
  obtain ⟨last', inBody', ⟨_, follows⟩, -⟩ := inBody.beside (by simp) beside (nesting.ahead_body parts)
    parts.length_inner low lowInner
    (fun size atLeast _ => if_neg (Nat.not_lt.mpr (Nat.le_of_lt (Nat.lt_of_lt_of_le deeper atLeast))))
    (fun mid front token rest goes later closes =>
      .inr (around ▸ goes.outer_length_lt balanced unique later closes))
  have compactEq := congrArg Draft.finish ((nesting.goes.trans inside).readFrom.trans inBody.readFrom)
  have expandedEq := congrArg Draft.finish (goes'.readFrom.trans inBody'.readFrom)
  -- The scope of the compact definition, and those of the others in its place.
  obtain ⟨known, shape⟩ := inBody.entered_kept
  have more : opened ≠ [] := List.ne_nil_of_length_pos (by omega)
  obtain ⟨first, added⟩ := nested.kept more inBody'
  have current : draft.frame.scope < draft.scopes.size :=
    (nesting.goes.laminar (Draft.start_laminar _ _) (tokenize_inOrder compact)).current
  have current' : draft'.frame.scope = draft.frame.scope :=
    start.frame.scope.trans ((nesting.unfolding parts).move_of_lt current)
  have isNamespace : (last.finish.scope draft.scopes.size).kind.isNamespace = true :=
    (congrArg (ScopeKind.isNamespace ·.1) shape).trans rfl
  have size : draft'.scopes.size = draft.scopes.size := start.size
  rw [size, current'] at first
  have level (level : Nat) (isAdded : level ∈ (nesting.unfolding parts).added) :
      draft'.scopes.size ≤ level ∧ level + 1 < next.scopes.size := by
    obtain ⟨atLeast, less⟩ := (nesting.unfolding parts).mem_added.mp isAdded
    have atLeast : draft.scopes.size ≤ level := atLeast
    have less : level < draft.scopes.size + (nesting.unfolding parts).more := less
    rw [nested.size]
    omega
  rw [Outline.ofText, Outline.ofText, compactEq, expandedEq]
  exact follows.unfolds rfl known (last.readFrom_ends _ (by simpa using nesting.closes))
    (last'.readFrom_ends _ (parts.closes nesting.closes)) isNamespace
    ⟨draft.frame.scope, current, congrArg (·.2.1) shape, first⟩
    (fun id isAdded => (added id (level id isAdded).1 (level id isAdded).2).1)
    (fun id isAdded => (added id (level id isAdded).1 (level id isAdded).2).2)

end Parts

end Nesting

/-- A definition that reading comes to after some steps. -/
theorem Nesting.of_reach {compact expanded : String} {names : List String} {head body : List Token}
    {closing : Token} (count : Nat) (isName : names ≠ []) (closes : closing.closesBrace = true)
    (spelled : let place := (Draft.start (Text.byteLength compact.toList)).reach count [] (tokenize compact)
      place.2.2 = head ++ (body ++ [closing]) ∧
      head.map Token.lexeme = compactHead names ∧
      closing ∈ (Token.stops [] (tokenize compact)).map (·.token) ∧
      Token.Balanced (body.filter (· ∈ (Token.stops [] (tokenize compact)).map (·.token))) ∧
      (tokenize expanded).map Token.lexeme = place.2.1.reverse.map Token.lexeme ++
        (nestedHeads names ++
          (body.map Token.lexeme ++ List.replicate names.length closing.lexeme))) :
    let place := (Draft.start (Text.byteLength compact.toList)).reach count [] (tokenize compact)
    Nesting compact expanded names place.1 place.2.1 head body closing := by
  obtain ⟨tokens, headed, ends, balanced, expands⟩ := spelled
  have goes := Draft.goes_reach count (Draft.start (Text.byteLength compact.toList)) [] (tokenize compact)
  exact ⟨tokens ▸ goes, isName, headed, closes, ends, balanced, expands⟩

instance (environment : Environment) (levels : List Nat) (mention : Mention) :
    Decidable (environment.LooksPast levels mention) :=
  decidable_of_iff
    ((mention.chain.qualifiers ≠ [] → EndsOutside levels (environment.outline.ancestors mention.scope)
        (environment.namespaceIn? mention.chain.first.text)) ∧
      (mention.chain.qualifiers = [] ∨
          environment.findNamespace mention.scope mention.chain.start mention.chain.first.text = none →
        EndsOutside levels (environment.outline.ancestors mention.scope)
          (environment.unqualifiedIn? mention.scope mention.chain.start mention.chain.first.text)))
    ⟨fun ⟨namespaces, members⟩ => ⟨namespaces, members⟩, fun past => ⟨past.namespaces, past.members⟩⟩

/-- No search in a file ends in one of the scopes, and no directive of a shared file belongs to them. -/
structure Environment.Bypasses (environment : Environment) (levels : List Nat) : Prop where
  shared : ∀ level ∈ levels, environment.sharedAt level = []
  usings : ∀ entry ∈ environment.outline.usings, ∀ name ∈ entry.sought?,
    EndsOutside levels (environment.outline.ancestors entry.scope) (environment.namespaceIn? name)
  mentions : ∀ mention ∈ environment.outline.mentions, mention.chain.leading = none →
    environment.bindsFirst mention = false → environment.LooksPast levels mention

/-- Lookup does not depend on how a nested namespace is written, unless it finds something in the scope of an
outer name. These scopes are numbered from the one that the definition opens. -/
theorem Environment.nesting_agrees {compact expanded : String} {names : List String} {draft : Draft}
    {before head body : List Token} {closing : Token}
    (nesting : Nesting compact expanded names draft before head body closing) (catalog : Catalog) :
    let old := ofOutline (Outline.ofText compact) catalog
    let new := ofOutline (Outline.ofText expanded) catalog
    new.Bypasses (List.range' draft.scopes.size (names.length - 1)) →
    new.outline.mentions.map (fun mention => (new.resolve mention).referent) =
      old.outline.mentions.map fun mention => (old.resolve mention).referent := by
  intro old new bypasses
  obtain ⟨front, heads, inner, braces, parts⟩ := nesting.exists_parts
  have outer : (nesting.unfolding parts).added ⊆ List.range' draft.scopes.size (names.length - 1) :=
    fun level isAdded => List.mem_reverse.mp isAdded
  have outlines := nesting.unfolds parts
  have unfolds : old.Unfolds (nesting.unfolding parts) new := by
    refine ofOutline_unfolds outlines (fun level isAdded => bypasses.shared level (outer isAdded)) ?_
    intro other member name isSought
    have sameOutline : new.outline = Outline.ofText expanded := ofOutline_outline _ _
    have outside := bypasses.usings other (by rwa [sameOutline]) name isSought
    rw [sameOutline] at outside
    exact outside.subset outer
  have mentions := unfolds.outline.mentions
  obtain ⟨length, pairs⟩ := List.forall₂_iff_get.mp mentions
  refine List.ext_getElem (by simp [length]) fun index bound bound' => ?_
  rw [List.getElem_map, List.getElem_map]
  rw [List.length_map] at bound bound'
  refine unfolds.resolve_agrees (pairs index bound' bound) fun relative notBound => ?_
  have past := bypasses.mentions _ (List.getElem_mem bound) relative notBound
  exact ⟨fun more => (past.namespaces more).subset outer, fun found => (past.members found).subset outer⟩

set_option maxRecDepth 100000 in
/-- The outer namespace has an `x` as well, but the search ends in the inner one. -/
theorem Environment.nesting_agrees_hidden :
    let compact := "namespace a \x7b int x; \x7d\nnamespace a::b \x7b int x; int y = x; \x7d\n"
    let expanded :=
      "namespace a \x7b int x; \x7d\nnamespace a \x7b namespace b \x7b int x; int y = x; \x7d \x7d\n"
    let catalog := Catalog.empty.add (Outline.ofText compact) false
    let old := ofOutline (Outline.ofText compact) catalog
    let new := ofOutline (Outline.ofText expanded) catalog
    new.outline.mentions.length = 1 ∧
      new.outline.mentions.map (fun mention => (new.resolve mention).referent) =
        old.outline.mentions.map fun mention => (old.resolve mention).referent := by
  intro compact expanded catalog old new
  let place := (Draft.start (Text.byteLength compact.toList)).reach 6 [] (tokenize compact)
  let head := place.2.2.take 5
  let body := (place.2.2.drop 5).dropLast
  let closing : Token := ⟨.punctuator, "\x7d", 58⟩
  have nesting : Nesting compact expanded ["a", "b"] place.1 place.2.1 head body closing :=
    .of_reach 6 (by simp) (by decide) (by decide +kernel)
  have searched : (∀ level ∈ List.range' place.1.scopes.size 1, new.sharedAt level = []) ∧
      (∀ entry ∈ new.outline.usings, ∀ name ∈ entry.sought?,
        EndsOutside (List.range' place.1.scopes.size 1) (new.outline.ancestors entry.scope)
          (new.namespaceIn? name)) ∧
      (∀ mention ∈ new.outline.mentions, mention.chain.leading = none → new.bindsFirst mention = false →
        new.LooksPast (List.range' place.1.scopes.size 1) mention) ∧ new.outline.mentions.length = 1 := by
    decide +kernel
  obtain ⟨shared, usings, mentions, count⟩ := searched
  exact ⟨count, nesting_agrees nesting catalog ⟨shared, usings, mentions⟩⟩

set_option maxRecDepth 100000 in
/-- The namespace `a` has no scope of its own around the body of `a::b`, so its member `x` is missed there. -/
theorem Environment.outer_namespace_missed :
    ¬∀ (compact expanded : String) (names : List String) (draft : Draft) (before head body : List Token)
      (closing : Token), Nesting compact expanded names draft before head body closing →
      ∀ catalog : Catalog,
        let old := ofOutline (Outline.ofText compact) catalog
        let new := ofOutline (Outline.ofText expanded) catalog
        new.outline.mentions.map (fun mention => (new.resolve mention).referent) =
          old.outline.mentions.map fun mention => (old.resolve mention).referent := by
  intro claim
  let compact := "namespace a \x7b int x; \x7d\nnamespace a::b \x7b int y = x; \x7d\n"
  let expanded := "namespace a \x7b int x; \x7d\nnamespace a \x7b namespace b \x7b int y = x; \x7d \x7d\n"
  let catalog := Catalog.empty.add (Outline.ofText compact) false
  let old := ofOutline (Outline.ofText compact) catalog
  let new := ofOutline (Outline.ofText expanded) catalog
  let place := (Draft.start (Text.byteLength compact.toList)).reach 6 [] (tokenize compact)
  let head := place.2.2.take 5
  let body := (place.2.2.drop 5).dropLast
  let closing : Token := ⟨.punctuator, "\x7d", 51⟩
  have nesting : Nesting compact expanded ["a", "b"] place.1 place.2.1 head body closing :=
    .of_reach 6 (by simp) (by decide) (by decide +kernel)
  have missed : old.outline.mentions.map (fun mention => (old.resolve mention).referent) = [.unresolved] ∧
      new.outline.mentions.map (fun mention => (new.resolve mention).referent) =
        [.found ⟨⟨"x", ⟨["a"]⟩, .variable⟩, false, default⟩] := by
    decide +kernel
  have same := claim _ _ _ _ _ _ _ _ nesting catalog
  have apart := (missed.2.symm.trans same).trans missed.1
  simp at apart

end Requalify
