import Requalify.NamespacePath

/-!
Which namespaces may be qualified. A policy is plain data: the root namespaces that are eligible, the
namespaces and symbols that are left alone all the same, and the inner namespaces that are never spelled
because they are details of the library that declares them.
-/

namespace Requalify

/-- A symbol that is never qualified wherever it is declared under `root`. -/
structure SymbolException where
  root : String
  symbol : String
  deriving DecidableEq, Inhabited

/-- A rule for namespaces that are not spelled, seen at the end of a path. -/
inductive InvisibleSuffix where
  /-- A last name that starts with `text`. -/
  | startingWith (text : String)
  /-- The last names are `path`; only for the listed symbols, if any are listed. -/
  | path (path : List String) (symbols : List String)
  deriving DecidableEq, Inhabited

def InvisibleSuffix.hides (rule : InvisibleSuffix) (segments : List String) (symbol : String) : Bool :=
  match rule with
  | startingWith text =>
      match segments.getLast? with
      | some last => text.toList.isPrefixOf last.toList
      | none => false
  | path names symbols =>
      names.isSuffixOf segments && (symbols.isEmpty || symbols.contains symbol)

structure Policy where
  targets : List String
  namespaceExceptions : List (List String)
  symbolExceptions : List SymbolException
  invisibleSuffixes : List InvisibleSuffix
  deriving DecidableEq

namespace Policy

/-- The rules for the standard library and Boost. -/
def standard : Policy where
  targets := ["boost", "std"]
  namespaceExceptions := [["boost", "hash_value"], ["std", "chrono_literals"], ["std", "swap"]]
  symbolExceptions := [⟨"std", "swap"⟩]
  invisibleSuffixes :=
    [.startingWith "__", .path ["boost", "operators_impl"] [], .path ["boost", "iterators"] [],
      .path ["boost", "python", "api"] ["object"],
      .path ["boost", "python", "self_ns"] ["self", "self_t"]]

instance : Inhabited Policy := ⟨standard⟩

/-- Nothing declared in `path` may be qualified, and no using-statement for it removed. -/
def excludesNamespace (policy : Policy) (path : NamespacePath) : Bool :=
  match path.root? with
  | none => true
  | some root => !policy.targets.contains root || policy.namespaceExceptions.any path.startsWith

def excludesSymbol (policy : Policy) (path : NamespacePath) (symbol : String) : Bool :=
  match path.root? with
  | none => false
  | some root => policy.symbolExceptions.any fun e => e.root == root && e.symbol == symbol

def hides (policy : Policy) (segments : List String) (symbol : String) : Bool :=
  policy.invisibleSuffixes.any (·.hides segments symbol)

/-- The greatest `n < count` such that the first `n + 1` names end in a hidden namespace. -/
def hiddenBelow? (policy : Policy) (segments : List String) (symbol : String) : Nat → Option Nat
  | 0 => none
  | count + 1 =>
      if policy.hides (segments.take (count + 1)) symbol then some count
      else policy.hiddenBelow? segments symbol count

/-- How many names of `path` are spelled when `symbol` is qualified. -/
def visibleLength (policy : Policy) (path : NamespacePath) (symbol : String) : Nat :=
  (policy.hiddenBelow? path.segments symbol path.length).getD path.length

end Policy

end Requalify
