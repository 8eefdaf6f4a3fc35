import Requalify.NameChain
import Requalify.Proofs.Token.Place

/-!
The tokens of a name chain. A chain that is read from tokens covers a prefix of them: its separators are
tokens in front of its last name, and it begins with the first of them.
-/

namespace Requalify

namespace NameChain

/-- Where the next name may begin, behind some of the names. -/
def stopBehind (chain : NameChain) (passed : List (NameToken × Span)) : Nat :=
  (passed.getLast?.map (·.2.stop)).getD ((chain.leading.map (·.stop)).getD chain.start)

/-- The offset is that behind the first names, or in front of all of them. -/
def Pauses (chain : NameChain) (offset : Nat) : Prop :=
  ∃ passed, passed <+: chain.qualifiers ∧ offset = chain.stopBehind passed

/-- The tokens of a chain: a leading separator, names each with a separator behind it, and the last name. -/
structure Layout where
  lead : Option Token
  pairs : List (Token × Token)
  last : Token

namespace Layout

def front (layout : Layout) : List Token :=
  layout.lead.toList ++ layout.pairs.flatMap fun pair => [pair.1, pair.2]

def chain (layout : Layout) : NameChain where
  leading := layout.lead.map Token.span
  qualifiers := layout.pairs.map fun pair => (pair.1.name, pair.2.span)
  last := layout.last.name

structure Valid (layout : Layout) : Prop where
  lead : ∀ token ∈ layout.lead, token.isScope = true
  pairs : ∀ pair ∈ layout.pairs, pair.1.isIdentifier = true ∧ pair.2.isScope = true
  last : layout.last.isIdentifier = true

end Layout

/-- The chain is written with the tokens of `front` and then `last`. -/
structure Spelled (chain : NameChain) (front : List Token) (last : Token) : Prop where
  size : chain.size = front.length + 1
  name : chain.last = last.name
  start : chain.start = ((front ++ [last]).head?.map Token.start).getD 0
  separators : ∀ pair ∈ chain.qualifiers, ∃ token ∈ front, pair.2 = token.span
  leading : ∀ span, chain.leading = some span → ∃ token ∈ front, span = token.span
  layout : ∃ layout : Layout, layout.Valid ∧ layout.chain = chain ∧ layout.front = front ∧
    layout.last = last

/-- A chain begins with one of its tokens. -/
theorem Spelled.exists_start {chain : NameChain} {front : List Token} {last : Token}
    (spelled : chain.Spelled front last) : ∃ token ∈ front ++ [last], chain.start = token.start := by
  rw [spelled.start]
  cases front with
  | nil => exact ⟨last, by simp, rfl⟩
  | cons token rest => exact ⟨token, by simp, rfl⟩

theorem Layout.Valid.spelled {layout : Layout} (valid : layout.Valid) :
    layout.chain.Spelled layout.front layout.last := by
  obtain ⟨lead, pairs, last⟩ := layout
  refine ⟨?_, rfl, ?_, ?_, ?_, _, valid, rfl, rfl, rfl⟩
  · have length : (pairs.flatMap fun pair => [pair.1, pair.2]).length = 2 * pairs.length := by
      simp [Nat.mul_comm, List.map_const']
    cases lead with
    | none => simp [size, chain, front, length]
    | some token =>
        simp only [size, chain, front, Option.map_some, Option.isSome_some, if_true,
          Option.toList_some, List.length_append, List.length_map, length, List.length_singleton]
  · cases lead with
    | some token => rfl
    | none =>
        cases pairs with
        | nil => rfl
        | cons pair pairs => rfl
  · intro pair member
    obtain ⟨written, inPairs, rfl⟩ := List.mem_map.mp member
    exact ⟨written.2, List.mem_append_right _ (List.mem_flatMap.mpr ⟨written, inPairs, by simp⟩), rfl⟩
  · intro span same
    obtain ⟨token, rfl, rfl⟩ := Option.map_eq_some_iff.mp same
    exact ⟨token, by simp [front], rfl⟩

theorem readFrom_layout (leading : Option Span) (passed : List (NameToken × Span)) (name : Token)
    (isName : name.isIdentifier = true) (rest : List Token) :
    ∃ pairs last behind, (⟨none, pairs, last⟩ : Layout).Valid ∧
      name :: rest = (⟨none, pairs, last⟩ : Layout).front ++ last :: behind ∧
      readFrom leading passed name rest =
        ⟨leading, passed.reverse ++ pairs.map fun pair => (pair.1.name, pair.2.span), last.name⟩ := by
  fun_induction readFrom leading passed name rest with
  | case1 passed name separator next rest goesOn ih =>
      obtain ⟨isSeparator, nextName⟩ := Bool.and_eq_true_iff.mp goesOn
      obtain ⟨pairs, last, behind, valid, parts, chain⟩ := ih nextName
      refine ⟨(name, separator) :: pairs, last, behind, ⟨by simp, ?_, valid.last⟩, ?_, ?_⟩
      · exact List.forall_mem_cons.mpr ⟨⟨isName, isSeparator⟩, valid.pairs⟩
      · rw [parts]
        rfl
      · simp [chain]
  | case2 passed name separator next rest stops =>
      exact ⟨[], name, separator :: next :: rest, ⟨by simp, by simp, isName⟩, rfl, by simp⟩
  | case3 rest passed name short =>
      exact ⟨[], name, rest, ⟨by simp, by simp, isName⟩, rfl, by simp⟩

/-- A chain covers the tokens that it is read from, up to its last name. -/
theorem read?_spelled {tokens : List Token} {chain : NameChain} (found : read? tokens = some chain) :
    ∃ front last behind, tokens = front ++ last :: behind ∧ chain.Spelled front last := by
  cases tokens with
  | nil => simp [read?] at found
  | cons first rest =>
      simp only [read?.eq_def] at found
      split at found
      next isName =>
        obtain rfl := Option.some.inj found
        obtain ⟨pairs, last, behind, valid, parts, chain⟩ := readFrom_layout none [] first isName rest
        rw [chain]
        exact ⟨_, last, behind, parts, valid.spelled⟩
      next =>
        split at found
        next name rest =>
          split at found
          next isChain =>
            obtain rfl := Option.some.inj found
            obtain ⟨isSeparator, isName⟩ := Bool.and_eq_true_iff.mp isChain
            obtain ⟨pairs, last, behind, valid, parts, chain⟩ :=
              readFrom_layout (some first.span) [] name isName rest
            have whole : (⟨some first, pairs, last⟩ : Layout).Valid :=
              ⟨by simpa using isSeparator, valid.pairs, valid.last⟩
            rw [chain, parts]
            exact ⟨_, last, behind, rfl, whole.spelled⟩
          next => simp at found
        next => simp at found

theorem read?_head {first : Token} {rest : List Token} {chain : NameChain}
    (found : read? (first :: rest) = some chain) :
    first.isIdentifier = true ∨ first.isScope = true := by
  simp only [read?.eq_def] at found
  split at found
  next isName => exact .inl isName
  next =>
    split at found
    next name rest =>
      split at found
      next isChain => exact .inr (Bool.and_eq_true_iff.mp isChain).1
      next => simp at found
    next => simp at found

end NameChain

end Requalify
