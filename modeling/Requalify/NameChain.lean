import Requalify.NamespacePath
import Requalify.Node
import Requalify.Token

/-! Written names with their qualifiers, such as `std::chrono::seconds`, read from tokens. -/

namespace Requalify

structure NameChain where
  /-- The span of a leading `::`. -/
  leading : Option Span
  /-- The names in front of the last one, each with the span of the `::` behind it. -/
  qualifiers : List (NameToken × Span)
  last : NameToken
  deriving DecidableEq, Inhabited

def Token.name (token : Token) : NameToken :=
  ⟨token.text, token.span⟩

namespace NameChain

def names (chain : NameChain) : List NameToken :=
  chain.qualifiers.map (·.1) ++ [chain.last]

def first (chain : NameChain) : NameToken :=
  (chain.qualifiers.head?.map (·.1)).getD chain.last

def path (chain : NameChain) : NamespacePath :=
  ⟨chain.names.map (·.text)⟩

/-- A name alone, without any `::`. -/
def isSingle (chain : NameChain) : Bool :=
  chain.leading.isNone && chain.qualifiers.isEmpty

def start (chain : NameChain) : Nat :=
  match chain.leading, chain.qualifiers with
  | some span, _ => span.start
  | none, (name, _) :: _ => name.span.start
  | none, [] => chain.last.span.start

def stop (chain : NameChain) : Nat :=
  chain.last.span.stop

def span (chain : NameChain) : Span :=
  Span.between chain.start chain.stop

/-- The number of its tokens. -/
def size (chain : NameChain) : Nat :=
  (if chain.leading.isSome then 1 else 0) + 2 * chain.qualifiers.length + 1

/-- Go on behind the token `name`; a `::` belongs to the chain only in front of another name. -/
def readFrom (leading : Option Span) (passed : List (NameToken × Span)) (name : Token) :
    List Token → NameChain
  | separator :: next :: rest =>
      if separator.isScope && next.isIdentifier then
        readFrom leading ((name.name, separator.span) :: passed) next rest
      else ⟨leading, passed.reverse, name.name⟩
  | _ => ⟨leading, passed.reverse, name.name⟩

/-- The longest chain at the beginning of the tokens. -/
def read? : List Token → Option NameChain
  | [] => none
  | first :: rest =>
      if first.isIdentifier then some (readFrom none [] first rest)
      else
        match rest with
        | name :: rest =>
            if first.isScope && name.isIdentifier then
              some (readFrom (some first.span) [] name rest)
            else none
        | [] => none

theorem size_pos (chain : NameChain) : 0 < chain.size := by
  simp [size]

theorem ne_nil_of_read? {tokens : List Token} {chain : NameChain} (found : read? tokens = some chain) :
    tokens ≠ [] := by
  rintro rfl
  simp [read?] at found

end NameChain

end Requalify
