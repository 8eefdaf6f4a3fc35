import Requalify.Proofs.Token.Ahead

/-!
Looking around in a list of tokens by index. Where a token has to be there, a missing one is a fault, and so
is a count that would fall below zero; a search that has looked at more places than there are tokens is
endless. Each search here ends without a fault and finds what the search over the tokens ahead or behind finds.
-/

namespace Requalify

/-- Why a reader that works by index would stop. -/
inductive Fault where
  /-- There is no token at the index. -/
  | outOfRange (index : Nat)
  /-- A count would fall below zero. -/
  | negative
  /-- A search goes on for more rounds than there are tokens. -/
  | endless
  /-- No scope is open. -/
  | noScope
  deriving DecidableEq

abbrev Checked := Except Fault

theorem Checked.ok_bind {α β : Type} (value : α) (next : α → Checked β) :
    (Except.ok value : Checked α) >>= next = next value := rfl

namespace Cursor

/-- One less, for a count that is not zero. -/
def less : Nat → Checked Nat
  | 0 => .error .negative
  | count + 1 => .ok count

section Tokens

variable (tokens : List Token)

/-- The token at an index that has to be in range. -/
def fetch (index : Nat) : Checked Token :=
  match tokens[index]? with
  | some token => .ok token
  | none => .error (.outOfRange index)

/-- The token in front of an index. -/
def previous? : Nat → Option Token
  | 0 => none
  | index + 1 => tokens[index]?

def isMarkAt (index : Nat) (text : String) : Bool :=
  tokens[index]?.any (·.isPunctuator text)

def isKeywordAt (index : Nat) (text : String) : Bool :=
  tokens[index]?.any (·.isKeyword text)

def isNameAt (index : Nat) : Bool :=
  tokens[index]?.any (·.isIdentifier)

def isSeparatorAt (index : Nat) : Bool :=
  tokens[index]?.any (·.isScope)

/-- The tokens in front of an index, nearest first. -/
def behind (index : Nat) : List Token :=
  (tokens.take index).reverse

variable {tokens}

theorem head?_drop (index : Nat) : (tokens.drop index).head? = tokens[index]? := by
  simp

theorem drop_of_some {index : Nat} {token : Token} (here : tokens[index]? = some token) :
    tokens.drop index = token :: tokens.drop (index + 1) := by
  obtain ⟨inRange, rfl⟩ := List.getElem?_eq_some_iff.mp here
  exact List.drop_eq_getElem_cons inRange

theorem drop_of_none {index : Nat} (missing : tokens[index]? = none) : tokens.drop index = [] :=
  List.drop_eq_nil_iff.mpr (List.getElem?_eq_none_iff.mp missing)

theorem lt_of_some {index : Nat} {token : Token} (here : tokens[index]? = some token) :
    index < tokens.length :=
  (List.getElem?_eq_some_iff.mp here).1

theorem fetch_of_some {index : Nat} {token : Token} (here : tokens[index]? = some token) :
    fetch tokens index = .ok token := by
  rw [fetch, here]

theorem behind_succ {index : Nat} {token : Token} (here : tokens[index]? = some token) :
    behind tokens (index + 1) = token :: behind tokens index := by
  rw [behind, List.take_add_one, here, behind]
  simp

theorem previous?_eq {index : Nat} (inRange : index ≤ tokens.length) :
    previous? tokens index = (behind tokens index).head? := by
  cases index with
  | zero => rfl
  | succ index =>
      rw [behind_succ (List.getElem?_eq_getElem (by omega)), List.head?_cons, previous?,
        List.getElem?_eq_getElem]

theorem isMarkAt_eq (index : Nat) (text : String) :
    isMarkAt tokens index text = Token.startsWith (tokens.drop index) text := by
  rw [isMarkAt, Token.startsWith, head?_drop]

theorem isKeywordAt_eq (index : Nat) (text : String) :
    isKeywordAt tokens index text = Token.startsWithKeyword (tokens.drop index) text := by
  rw [isKeywordAt, Token.startsWithKeyword, head?_drop]

theorem exists_of_isNameAt {index : Nat} (isName : isNameAt tokens index = true) :
    ∃ name, tokens[index]? = some name ∧ name.isIdentifier = true :=
  (Option.any_eq_true ..).mp isName

theorem filter_isIdentifier {index : Nat} (other : isNameAt tokens index = false) :
    tokens[index]?.filter (·.isIdentifier) = none := by
  rw [isNameAt] at other
  cases here : tokens[index]? with
  | none => rfl
  | some token =>
      rw [here, Option.any_some] at other
      simp [other]

theorem isNameAt_eq (index : Nat) :
    isNameAt tokens index = Token.startsWithIdentifier (tokens.drop index) := by
  rw [isNameAt, Token.startsWithIdentifier, head?_drop]

end Tokens

/-! Bracket groups and attributes. -/

section Groups

variable (tokens : List Token)

/-- Behind the bracket that closes the group that begins at the index; at the end if it is missing. -/
def groupEndFrom (opening closing : String) : Nat → Nat → Nat → Checked Nat
  | 0, _, _ => .error .endless
  | rounds + 1, index, depth =>
      match tokens[index]? with
      | none => .ok index
      | some token =>
          if token.isPunctuator opening then groupEndFrom opening closing rounds (index + 1) (depth + 1)
          else if token.isPunctuator closing then
            if depth - 1 = 0 then .ok (index + 1)
            else groupEndFrom opening closing rounds (index + 1) (depth - 1)
          else groupEndFrom opening closing rounds (index + 1) depth

def groupEnd (index : Nat) (opening closing : String) : Checked Nat :=
  groupEndFrom tokens opening closing (tokens.length + 1) index 0

def attributesEndFrom : Nat → Nat → Checked Nat
  | 0, _ => .error .endless
  | rounds + 1, index => do
      if isMarkAt tokens index "[" && isMarkAt tokens (index + 1) "[" then
        attributesEndFrom rounds (← groupEnd tokens index "[" "]")
      else if tokens[index]?.any Token.opensAttribute && isMarkAt tokens (index + 1) "(" then
        attributesEndFrom rounds (← groupEnd tokens (index + 1) "(" ")")
      else return index

/-- Behind the attributes at the index. -/
def attributesEnd (index : Nat) : Checked Nat :=
  attributesEndFrom tokens (tokens.length + 1) index

variable {tokens}

theorem groupEndFrom_eq (opening closing : String) {rounds index : Nat} (depth : Nat)
    (enough : tokens.length - index < rounds) : groupEndFrom tokens opening closing rounds index depth =
      .ok (index + Token.groupLength opening closing depth 0 (tokens.drop index)) := by
  induction rounds generalizing index depth with
  | zero => omega
  | succ rounds ih =>
      rw [groupEndFrom]
      cases here : tokens[index]? with
      | none =>
          rw [drop_of_none here]
          rfl
      | some token =>
          have inRange := lt_of_some here
          have later := fun depth => @ih (index + 1) depth (by omega)
          have counted (depth : Nat) :
              index + Token.groupLength opening closing depth 1 (tokens.drop (index + 1)) =
                index + 1 + Token.groupLength opening closing depth 0 (tokens.drop (index + 1)) := by
            have one := Token.groupLength_add opening closing depth 0 1 (tokens.drop (index + 1))
            rw [Nat.zero_add] at one
            omega
          rw [drop_of_some here, Token.groupLength]
          dsimp only
          split
          next => rw [later, counted]
          next =>
            split
            next =>
              by_cases last : depth ≤ 1
              · rw [if_pos last, if_pos (by omega)]
              · rw [if_neg last, if_neg (by omega), later, counted]
            next => rw [later, counted]

theorem groupEnd_eq (opening closing : String) (index : Nat) : groupEnd tokens index opening closing =
    .ok (index + Token.groupLength opening closing 0 0 (tokens.drop index)) :=
  groupEndFrom_eq opening closing 0 (by omega)

/-- A group whose opening bracket is at the index. -/
theorem groupEnd_of_opening {opening closing : String} {index : Nat} {token : Token}
    (here : tokens[index]? = some token) (opens : token.isPunctuator opening = true) :
    groupEnd tokens index opening closing =
      .ok (index + 1 + Token.groupLength opening closing 1 0 (tokens.drop (index + 1))) := by
  have one := Token.groupLength_add opening closing 1 0 1 (tokens.drop (index + 1))
  rw [Nat.zero_add] at one
  rw [groupEnd_eq, drop_of_some here, Token.groupLength, if_pos opens, Nat.zero_add, one]
  congr 1
  omega

/-- A group that opens with two brackets. -/
theorem groupEnd_of_openings {opening closing : String} {index : Nat} {first second : Token}
    (here : tokens[index]? = some first) (next : tokens[index + 1]? = some second)
    (opens : first.isPunctuator opening = true) (opensTwice : second.isPunctuator opening = true) :
    groupEnd tokens index opening closing =
      .ok (index + 2 + Token.groupLength opening closing 2 0 (tokens.drop (index + 2))) := by
  have one := Token.groupLength_add opening closing 2 0 1 (tokens.drop (index + 2))
  rw [Nat.zero_add] at one
  rw [groupEnd_of_opening here opens, drop_of_some next, Token.groupLength, if_pos opensTwice, Nat.zero_add,
    one]
  congr 1
  omega

theorem attributesEndFrom_eq {rounds index : Nat} (enough : tokens.length - index < rounds) :
    attributesEndFrom tokens rounds index =
      .ok (index + Token.attributesLength 0 (tokens.drop index)) := by
  induction rounds generalizing index with
  | zero => omega
  | succ rounds ih =>
      have stays (other : Token.attributesLength 0 (tokens.drop index) = 0) :
          (Except.ok index : Checked Nat) = .ok (index + Token.attributesLength 0 (tokens.drop index)) := by
        rw [other, Nat.add_zero]
      rw [attributesEndFrom]
      cases here : tokens[index]? with
      | none =>
          simp only [isMarkAt, here, Option.any_none, Bool.false_and, Bool.false_eq_true, if_false]
          exact stays (by rw [drop_of_none here, Token.attributesLength]; simp)
      | some first =>
          cases next : tokens[index + 1]? with
          | none =>
              simp only [isMarkAt, next, Option.any_none, Bool.and_false, Bool.false_eq_true, if_false]
              exact stays (by rw [drop_of_some here, drop_of_none next, Token.attributesLength]; simp)
          | some second =>
              have inRange := lt_of_some next
              have parts : tokens.drop index = first :: second :: tokens.drop (index + 2) := by
                rw [drop_of_some here, drop_of_some next]
              simp only [isMarkAt, here, next, Option.any_some]
              rw [parts, Token.Ahead.attributesLength_pair]
              split
              next square =>
                rw [Bool.and_eq_true] at square
                rw [groupEnd_of_openings here next square.1 square.2, Checked.ok_bind, ih (by omega),
                  List.drop_drop]
                congr 1
                omega
              next notSquare =>
                split
                next round =>
                  rw [Bool.and_eq_true] at round
                  rw [groupEnd_of_opening next round.2, Checked.ok_bind, ih (by omega), List.drop_drop,
                    show index + 1 + 1 = index + 2 from rfl]
                  congr 1
                  omega
                next => rfl

theorem attributesEnd_eq (index : Nat) : attributesEnd tokens index =
    .ok (index + Token.attributesLength 0 (tokens.drop index)) :=
  attributesEndFrom_eq (by omega)

end Groups

/-! Names. -/

section Names

variable (tokens : List Token)

/-- The names of a chain from an index on, latest first, each with the `::` behind it that goes on with the
chain, and where the chain ends. -/
def segmentsFrom : Nat → Nat → List (NameToken × Option Span) →
    Checked (List (NameToken × Option Span) × Nat)
  | 0, _, _ => .error .endless
  | rounds + 1, index, passed =>
      match tokens[index]? with
      | none => .ok (passed, index)
      | some token =>
          if token.isIdentifier then
            match tokens[index + 1]?.filter (·.isScope && isNameAt tokens (index + 2)) with
            | some separator =>
                segmentsFrom rounds (index + 2) ((token.name, some separator.span) :: passed)
            | none => .ok ((token.name, none) :: passed, index + 1)
          else .ok (passed, index)

/-- The chain at an index, and where it ends. -/
def chainAt (index : Nat) : Checked (Option (NameChain × Nat)) := do
  let leading := tokens[index]?.filter (·.isScope)
  let (segments, stop) ← segmentsFrom tokens (tokens.length + 1)
    (index + if leading.isSome then 1 else 0) []
  match segments with
  | [] => return none
  | (last, _) :: passed =>
      let qualifiers := passed.reverse.filterMap fun (name, separator) => separator.map (name, ·)
      return some (⟨leading.map Token.span, qualifiers, last⟩, stop)

variable {tokens}

/-- Names that are passed, as segments. -/
def segments (passed : List (NameToken × Span)) : List (NameToken × Option Span) :=
  passed.map fun (name, separator) => (name, some separator)

theorem filterMap_segments (passed : List (NameToken × Span)) :
    ((segments passed).reverse.filterMap fun (name, separator) => separator.map (name, ·)) =
      passed.reverse := by
  rw [segments, ← List.map_reverse, List.filterMap_map]
  exact List.filterMap_some

theorem segmentsFrom_name {rounds index : Nat} {name : Token} (leading : Option Span)
    (passed : List (NameToken × Span)) (enough : tokens.length - index < rounds)
    (here : tokens[index]? = some name) (isName : name.isIdentifier = true) :
    let chain := NameChain.readFrom leading passed name (tokens.drop (index + 1))
    ∃ stop, segmentsFrom tokens rounds index (segments passed) =
        .ok ((chain.last, none) :: segments chain.qualifiers.reverse, stop) ∧
      chain.leading = leading ∧ stop + 2 * passed.length = index + 1 + 2 * chain.qualifiers.length := by
  induction rounds generalizing index name passed with
  | zero => omega
  | succ rounds ih =>
      have inRange := lt_of_some here
      have last (read : NameChain.readFrom leading passed name (tokens.drop (index + 1)) =
            ⟨leading, passed.reverse, name.name⟩)
          (apart : tokens[index + 1]?.filter (·.isScope && isNameAt tokens (index + 2)) = none) :
          let chain := NameChain.readFrom leading passed name (tokens.drop (index + 1))
          ∃ stop, segmentsFrom tokens (rounds + 1) index (segments passed) =
              .ok ((chain.last, none) :: segments chain.qualifiers.reverse, stop) ∧
            chain.leading = leading ∧
              stop + 2 * passed.length = index + 1 + 2 * chain.qualifiers.length := by
        refine ⟨index + 1, ?_, ?_⟩
        · rw [segmentsFrom, here]
          dsimp only
          rw [if_pos isName, apart, read, List.reverse_reverse]
        · rw [read]
          simp
      cases behind : tokens[index + 1]? with
      | none =>
          refine last ?_ (by rw [behind]; rfl)
          rw [drop_of_none behind, NameChain.readFrom]
          simp
      | some separator =>
          cases further : tokens[index + 2]? with
          | none =>
              refine last ?_ (by simp [behind, isNameAt, further])
              rw [drop_of_some behind, drop_of_none further, NameChain.readFrom]
              simp
          | some next =>
              have parts : tokens.drop (index + 1) = separator :: next :: tokens.drop (index + 3) := by
                rw [drop_of_some behind, drop_of_some further]
              cases goesOn : separator.isScope && next.isIdentifier with
              | false =>
                  refine last ?_ (by simpa [behind, isNameAt, further] using goesOn)
                  rw [parts, NameChain.readFrom, goesOn]
                  simp
              | true =>
                  obtain ⟨isScope, isNext⟩ := (Bool.and_eq_true ..).mp goesOn
                  obtain ⟨stop, read, lead, size⟩ :=
                    @ih _ _ ((name.name, separator.span) :: passed) (by omega) further isNext
                  rw [parts, NameChain.readFrom, if_pos goesOn]
                  refine ⟨stop, ?_, lead, ?_⟩
                  · rw [segmentsFrom, here]
                    dsimp only
                    rw [if_pos isName, behind, Option.filter_some, isNameAt, further, Option.any_some, goesOn]
                    exact read
                  · rw [List.length_cons] at size
                    have same : tokens.drop (index + 2 + 1) = tokens.drop (index + 3) := rfl
                    rw [same] at size
                    omega

theorem segmentsFrom_other {rounds index : Nat} (enough : tokens.length - index < rounds)
    (other : isNameAt tokens index = false) :
    segmentsFrom tokens rounds index [] = .ok ([], index) := by
  cases rounds with
  | zero => omega
  | succ rounds =>
      rw [segmentsFrom]
      cases here : tokens[index]? with
      | none => rfl
      | some token =>
          rw [isNameAt, here, Option.any_some] at other
          simp [other]

theorem chainAt_of_name {index start : Nat} {name : Token} {leading : Option Token}
    (lead : tokens[index]?.filter (·.isScope) = leading)
    (isStart : start = index + if leading.isSome then 1 else 0) (here : tokens[start]? = some name)
    (isName : name.isIdentifier = true) :
    let chain := NameChain.readFrom (leading.map Token.span) [] name (tokens.drop (start + 1))
    chainAt tokens index = .ok (some (chain, index + chain.size)) := by
  have enough : tokens.length - start < tokens.length + 1 := by omega
  obtain ⟨stop, read, leads, size⟩ := segmentsFrom_name (leading.map Token.span) [] enough here isName
  rw [chainAt, lead, ← isStart]
  generalize NameChain.readFrom (leading.map Token.span) [] name (tokens.drop (start + 1)) = chain
    at read leads size ⊢
  obtain ⟨_, qualifiers, last⟩ := chain
  obtain rfl : _ = leading.map Token.span := leads
  have stopEq : stop = index + ((if leading.isSome then 1 else 0) + 2 * qualifiers.length + 1) := by
    rw [List.length_nil] at size
    dsimp only at size
    omega
  rw [show ([] : List (NameToken × Option Span)) = segments [] from rfl, read, Checked.ok_bind]
  dsimp only
  rw [filterMap_segments, List.reverse_reverse, NameChain.size, Option.isSome_map, stopEq]
  rfl

/-- A chain at an index is the one at the beginning of the tokens ahead. -/
theorem chainAt_eq (index : Nat) : chainAt tokens index =
    .ok ((NameChain.read? (tokens.drop index)).map fun chain => (chain, index + chain.size)) := by
  have nothing (start : Nat)
      (isStart : start = index + if (tokens[index]?.filter (·.isScope)).isSome then 1 else 0)
      (other : isNameAt tokens start = false)
      (read : NameChain.read? (tokens.drop index) = none) : chainAt tokens index =
        .ok ((NameChain.read? (tokens.drop index)).map fun chain => (chain, index + chain.size)) := by
    rw [chainAt, ← isStart, segmentsFrom_other (by omega) other, read]
    rfl
  cases here : tokens[index]? with
  | none =>
      refine nothing index (by simp [here]) (by simp [isNameAt, here]) ?_
      rw [drop_of_none here, NameChain.read?.eq_def]
  | some first =>
      cases isName : first.isIdentifier with
      | true =>
          have notScope := Token.not_isScope_of_isIdentifier isName
          rw [chainAt_of_name (show _ = none by simp [here, notScope]) rfl here isName, drop_of_some here,
            NameChain.read?.eq_def]
          simp [isName]
      | false =>
          cases isScope : first.isScope with
          | false =>
              refine nothing index (by simp [here, isScope]) (by simp [isNameAt, here, isName]) ?_
              rw [drop_of_some here, NameChain.read?.eq_def]
              cases tokens.drop (index + 1) <;> simp [isName, isScope]
          | true =>
              cases next : tokens[index + 1]? with
              | none =>
                  refine nothing (index + 1) (by simp [here, isScope]) (by simp [isNameAt, next]) ?_
                  rw [drop_of_some here, drop_of_none next]
                  simp [NameChain.read?, isName]
              | some name =>
                  cases isNext : name.isIdentifier with
                  | false =>
                      refine nothing (index + 1) (by simp [here, isScope]) (by simp [isNameAt, next, isNext]) ?_
                      rw [drop_of_some here, drop_of_some next]
                      simp [NameChain.read?, isName, isNext]
                  | true =>
                      rw [chainAt_of_name (show _ = some first by simp [here, isScope]) rfl next isNext,
                        drop_of_some here, drop_of_some next]
                      simp [NameChain.read?, isName, isNext, isScope]

end Names

/-! Members, dependent names and operators. -/

section Members

variable (tokens : List Token)

/-- Behind the `:: name` pairs at an index. -/
def pairsEndFrom : Nat → Nat → Checked Nat
  | 0, _ => .error .endless
  | rounds + 1, index =>
      if isSeparatorAt tokens index && isNameAt tokens (index + 1) then pairsEndFrom rounds (index + 2)
      else .ok index

/-- Behind a `template` and a `~` at an index. -/
def memberLeadEnd (index : Nat) : Nat :=
  let index := if isKeywordAt tokens index "template" then index + 1 else index
  if isMarkAt tokens index "~" then index + 1 else index

/-- Behind the member whose name begins at an index. -/
def memberEnd (index : Nat) : Checked Nat :=
  let start := memberLeadEnd tokens index
  if isNameAt tokens start then pairsEndFrom tokens (tokens.length + 1) (start + 1) else .ok start

def dependentEndFrom : Nat → Nat → Checked Nat
  | 0, _ => .error .endless
  | rounds + 1, index =>
      if isSeparatorAt tokens index then
        let start := memberLeadEnd tokens (index + 1)
        if isNameAt tokens start then dependentEndFrom rounds (start + 1) else .ok start
      else .ok index

/-- Behind the dependent names at an index. -/
def dependentEnd (index : Nat) : Checked Nat :=
  dependentEndFrom tokens (tokens.length + 1) index

def marksEndFrom : Nat → Nat → Checked Nat
  | 0, _ => .error .endless
  | rounds + 1, index =>
      if tokens[index]?.any fun token => token.kind == .punctuator && !token.isPunctuator "(" then
        marksEndFrom rounds (index + 1)
      else .ok index

/-- Behind the operator at an index. -/
def operatorEnd (index : Nat) : Checked Nat :=
  match tokens[index]? with
  | none => .ok index
  | some token =>
      if token.isPunctuator "(" && isMarkAt tokens (index + 1) ")" then .ok (index + 2)
      else if token.kind = .punctuator then marksEndFrom tokens (tokens.length + 1) index
      else if token.kind = .literal then .ok (index + 1)
      else .ok index

variable {tokens}

theorem pairsEndFrom_eq {rounds index : Nat} (enough : tokens.length - index < rounds) :
    pairsEndFrom tokens rounds index = .ok (index + Token.scopedNamesLength (tokens.drop index)) := by
  induction rounds generalizing index with
  | zero => omega
  | succ rounds ih =>
      rw [pairsEndFrom, isSeparatorAt, isNameAt]
      cases here : tokens[index]? with
      | none =>
          rw [drop_of_none here]
          rfl
      | some separator =>
          cases next : tokens[index + 1]? with
          | none =>
              rw [drop_of_some here, drop_of_none next, Option.any_none, Bool.and_false]
              rfl
          | some name =>
              have inRange := lt_of_some next
              have parts : tokens.drop index = separator :: name :: tokens.drop (index + 2) := by
                rw [drop_of_some here, drop_of_some next]
              rw [parts, Token.scopedNamesLength, Option.any_some, Option.any_some]
              split
              next =>
                rw [ih (by omega)]
                congr 1
                omega
              next => rfl

theorem memberLeadEnd_eq (index : Nat) :
    memberLeadEnd tokens index = index + Token.memberLeadLength (tokens.drop index) := by
  simp only [memberLeadEnd, Token.memberLeadLength, isMarkAt_eq, isKeywordAt_eq, List.drop_drop]
  split_ifs <;> simp_all

theorem memberEnd_eq (index : Nat) :
    memberEnd tokens index = .ok (index + Token.memberLength (tokens.drop index)) := by
  have lead : memberLeadEnd tokens index = _ := memberLeadEnd_eq index
  rw [memberEnd, Token.memberLength, List.drop_drop, ← lead, isNameAt]
  cases here : tokens[memberLeadEnd tokens index]? with
  | none =>
      rw [drop_of_none here, lead]
      rfl
  | some name =>
      have inRange := lt_of_some here
      rw [drop_of_some here, Option.any_some]
      dsimp only
      split
      next =>
        rw [pairsEndFrom_eq (by omega)]
        congr 1
        omega
      next => rw [lead]

theorem exists_of_startsWithIdentifier {ahead : List Token}
    (isName : Token.startsWithIdentifier ahead = true) :
    ∃ name rest, ahead = name :: rest ∧ name.isIdentifier = true := by
  cases ahead with
  | nil => cases isName
  | cons name rest => exact ⟨name, rest, rfl, isName⟩

theorem dependentLength_add (count : Nat) (ahead : List Token) :
    Token.dependentLength count ahead = count + Token.dependentLength 0 ahead := by
  generalize sizeEq : ahead.length = size
  induction size using Nat.strongRecOn generalizing count ahead with
  | ind size ih =>
      cases ahead with
      | nil => simp [Token.dependentLength]
      | cons separator rest =>
          cases isScope : separator.isScope with
          | false => simp [Token.dependentLength, isScope]
          | true =>
              cases isName : Token.startsWithIdentifier (rest.drop (Token.memberLeadLength rest)) with
              | false =>
                  rw [Token.Ahead.dependentLength_of_other isScope isName,
                    Token.Ahead.dependentLength_of_other isScope isName]
                  omega
              | true =>
                  obtain ⟨name, after, parts, isName⟩ := exists_of_startsWithIdentifier isName
                  have shorter : after.length < size := by
                    have lengths := congrArg List.length parts
                    simp only [List.length_drop, List.length_cons] at lengths sizeEq
                    omega
                  rw [Token.Ahead.dependentLength_of_name isScope isName parts,
                    Token.Ahead.dependentLength_of_name isScope isName parts,
                    ih _ shorter _ after rfl, ih _ shorter (0 + _ + 2) after rfl]
                  omega

theorem dependentLength_pos {separator : Token} (isScope : separator.isScope = true) (rest : List Token) :
    0 < Token.dependentLength 0 (separator :: rest) := by
  cases isName : Token.startsWithIdentifier (rest.drop (Token.memberLeadLength rest)) with
  | false =>
      rw [Token.Ahead.dependentLength_of_other isScope isName]
      omega
  | true =>
      obtain ⟨name, after, parts, isName⟩ := exists_of_startsWithIdentifier isName
      rw [Token.Ahead.dependentLength_of_name isScope isName parts, dependentLength_add]
      omega

theorem dependentEndFrom_eq {rounds index : Nat} (enough : tokens.length - index < rounds) :
    dependentEndFrom tokens rounds index =
      .ok (index + Token.dependentLength 0 (tokens.drop index)) := by
  induction rounds generalizing index with
  | zero => omega
  | succ rounds ih =>
      rw [dependentEndFrom, isSeparatorAt]
      cases here : tokens[index]? with
      | none =>
          rw [drop_of_none here, Token.dependentLength]
          rfl
      | some separator =>
          rw [drop_of_some here, Option.any_some]
          cases isScope : separator.isScope with
          | false =>
              rw [Token.dependentLength, isScope]
              rfl
          | true =>
              have lead : memberLeadEnd tokens (index + 1) = _ := memberLeadEnd_eq (index + 1)
              have behindLead : (tokens.drop (index + 1)).drop
                  (Token.memberLeadLength (tokens.drop (index + 1))) =
                  tokens.drop (memberLeadEnd tokens (index + 1)) := by
                rw [List.drop_drop, lead]
              rw [if_pos rfl]
              dsimp only
              split
              next isName =>
                obtain ⟨name, found, isIdentifier⟩ := exists_of_isNameAt isName
                have inRange := lt_of_some found
                rw [Token.Ahead.dependentLength_of_name isScope isIdentifier
                  (behindLead.trans (drop_of_some found)), dependentLength_add, ih (by omega)]
                congr 1
                omega
              next other =>
                rw [Token.Ahead.dependentLength_of_other isScope
                  (by rw [behindLead, ← isNameAt_eq, ← Bool.not_eq_true]; exact other)]
                congr 1
                omega

theorem dependentEnd_eq (index : Nat) : dependentEnd tokens index =
    .ok (index + Token.dependentLength 0 (tokens.drop index)) :=
  dependentEndFrom_eq (by omega)

theorem marksEndFrom_eq {rounds index : Nat} (enough : tokens.length - index < rounds) :
    marksEndFrom tokens rounds index = .ok (index + ((tokens.drop index).takeWhile fun token =>
      token.kind == .punctuator && token.text != "(").length) := by
  induction rounds generalizing index with
  | zero => omega
  | succ rounds ih =>
      rw [marksEndFrom]
      cases here : tokens[index]? with
      | none =>
          rw [drop_of_none here]
          rfl
      | some token =>
          have inRange := lt_of_some here
          have same : (token.kind == .punctuator && !token.isPunctuator "(") =
              (token.kind == .punctuator && token.text != "(") := by
            cases isMark : token.kind == .punctuator with
            | false => rfl
            | true => simp [Token.isPunctuator, isMark, bne]
          rw [drop_of_some here, Option.any_some, same, List.takeWhile_cons]
          split
          next =>
            rw [ih (by omega), List.length_cons]
            congr 1
            omega
          next => rfl

theorem operatorEnd_eq (index : Nat) :
    operatorEnd tokens index = .ok (index + Token.operatorLength (tokens.drop index)) := by
  rw [operatorEnd]
  cases here : tokens[index]? with
  | none =>
      rw [drop_of_none here]
      rfl
  | some token =>
      rw [isMarkAt_eq, drop_of_some here, Token.operatorLength.eq_def]
      dsimp only
      split
      next => rfl
      next =>
        by_cases isLiteral : token.kind = .literal
        · rw [if_pos isLiteral, if_neg (by rw [isLiteral]; decide), if_pos isLiteral]
        · rw [if_neg isLiteral, if_neg isLiteral, ← drop_of_some here]
          split
          next => exact marksEndFrom_eq (by omega)
          next notMark => simp [drop_of_some here, notMark]

end Members

/-! Types that end in front of an index. -/

section Types

variable (tokens : List Token)

/-- The `<` that opens the template arguments around an index is behind a name, where `depth` lists of
arguments and `parens` parentheses are open. -/
def closesTemplateFrom (depth parens : Nat) : Nat → Checked Bool
  | 0 => .ok false
  | index + 1 => do
      let token ← fetch tokens index
      if token.isPunctuator ")" then closesTemplateFrom depth (parens + 1) index
      else if token.isPunctuator "(" then
        if parens = 0 then return false
        else closesTemplateFrom depth (← less parens) index
      else if 0 < parens then closesTemplateFrom depth parens index
      else if token.isPunctuator ">" then closesTemplateFrom (depth + 1) parens index
      else if token.isPunctuator "<" then
        let depth ← less depth
        if depth = 0 then return (previous? tokens index).any (·.isIdentifier)
        else closesTemplateFrom depth parens index
      else if token.isPunctuator ";" || token.isPunctuator "\x7b" || token.isPunctuator "\x7d" then
        return false
      else closesTemplateFrom depth parens index

def endsTypeFrom : Nat → Nat → Checked Bool
  | 0, _ => .error .endless
  | rounds + 1, index =>
      match tokens[index]? with
      | none => .ok false
      | some token =>
          if token.isIdentifier then .ok true
          else if token.kind = .keyword && typeKeywords.contains token.text then .ok true
          else if token.isPunctuator "..." then .ok true
          else if token.isPunctuator ">" then closesTemplateFrom tokens 0 0 (index + 1)
          else if token.isConstancy || token.isIndirection then
            if index = 0 then .ok false else endsTypeFrom rounds (index - 1)
          else .ok false

/-- A type ends with the token at an index. -/
def endsType (index : Nat) : Checked Bool :=
  endsTypeFrom tokens (tokens.length + 1) index

variable {tokens}

theorem behind_zero : behind tokens 0 = [] := by
  simp [behind]

/-- With a list of template arguments open, the search ends before their number falls below zero. -/
theorem closesTemplateFrom_eq {depth : Nat} (inside : 0 < depth) (parens : Nat) {index : Nat}
    (inRange : index ≤ tokens.length) : closesTemplateFrom tokens depth parens index =
      .ok (Token.closesTemplate depth parens (behind tokens index)) := by
  induction index generalizing depth parens with
  | zero => rw [closesTemplateFrom, behind_zero, Token.closesTemplate]
  | succ index ih =>
      obtain ⟨token, here⟩ : ∃ token, tokens[index]? = some token :=
        ⟨_, List.getElem?_eq_getElem inRange⟩
      have inRange' : index ≤ tokens.length := by omega
      rw [closesTemplateFrom, fetch_of_some here, Checked.ok_bind, behind_succ here, Token.closesTemplate]
      split
      next => exact ih inside _ inRange'
      next =>
        split
        next =>
          split
          next => rfl
          next some =>
            obtain ⟨parens, rfl⟩ := Nat.exists_eq_succ_of_ne_zero some
            rw [less, Checked.ok_bind]
            exact ih inside _ inRange'
        next =>
          split
          next => exact ih inside _ inRange'
          next =>
            split
            next => exact ih (Nat.succ_pos _) _ inRange'
            next =>
              split
              next =>
                obtain ⟨depth, rfl⟩ := Nat.exists_eq_succ_of_ne_zero (Nat.ne_of_gt inside)
                rw [less, Checked.ok_bind]
                by_cases last : depth = 0
                · rw [if_pos last, if_pos (by omega), previous?_eq inRange']
                  rfl
                · rw [if_neg last, if_neg (by omega)]
                  exact ih (Nat.pos_of_ne_zero last) _ inRange'
              next =>
                split
                next => rfl
                next => exact ih inside _ inRange'

/-- The first token that is looked at is a `>`, which opens a list of template arguments. -/
theorem closesTemplateFrom_of_mark {index : Nat} {token : Token} (here : tokens[index]? = some token)
    (isMark : token.isPunctuator ">" = true) : closesTemplateFrom tokens 0 0 (index + 1) =
      .ok (Token.closesTemplate 0 0 (behind tokens (index + 1))) := by
  have inRange := lt_of_some here
  have notRound : token.isPunctuator ")" = false :=
    Token.not_isPunctuator_of_isPunctuator isMark (by decide)
  have notRound' : token.isPunctuator "(" = false :=
    Token.not_isPunctuator_of_isPunctuator isMark (by decide)
  rw [closesTemplateFrom, fetch_of_some here, Checked.ok_bind, behind_succ here, Token.closesTemplate]
  simp only [notRound, notRound', isMark, Nat.lt_irrefl, if_true, if_false, Bool.false_eq_true]
  exact closesTemplateFrom_eq (by omega) 0 (by omega)

theorem endsTypeFrom_eq {rounds index : Nat} (enough : index < rounds) (inRange : index < tokens.length) :
    endsTypeFrom tokens rounds index = .ok (Token.endsType (behind tokens (index + 1))) := by
  induction rounds generalizing index with
  | zero => omega
  | succ rounds ih =>
      obtain ⟨token, here⟩ : ∃ token, tokens[index]? = some token :=
        ⟨_, List.getElem?_eq_getElem inRange⟩
      rw [endsTypeFrom, here]
      dsimp only
      have whole : behind tokens (index + 1) = token :: behind tokens index := behind_succ here
      rw [whole, Token.endsType]
      split
      next => rfl
      next =>
        split
        next => rfl
        next =>
          split
          next => rfl
          next =>
            split
            next isMark => rw [closesTemplateFrom_of_mark here isMark, whole]
            next =>
              split
              next =>
                cases index with
                | zero => rw [behind_zero, Token.endsType, if_pos rfl]
                | succ before => exact @ih before (by omega) (by omega)
              next => rfl

theorem endsType_eq {index : Nat} (inRange : index < tokens.length) :
    endsType tokens index = .ok (Token.endsType (behind tokens (index + 1))) :=
  endsTypeFrom_eq (by omega) inRange

end Types

end Cursor

end Requalify
