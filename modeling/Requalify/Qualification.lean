import Requalify.Declaration
import Requalify.Policy

/-!
Which edit makes a written name fully qualified. Names at the end of the written qualifier that agree
with the visible path of the declaration stay; names at the front of the path that the enclosing
namespace implies are not spelled; what is left in between is inserted, or takes the place of the
written names that did not agree.
-/

namespace Requalify

inductive Qualification where
  | unchanged
  | insert (text : String)
  /-- Put `text` in place of the first `count` written names. -/
  | replace (count : Nat) (text : String)
  deriving DecidableEq

/-- The edit for a use of `symbol`, declared in `declared`, that is written with the qualifier
`written` inside the namespace `context`. -/
def Qualification.resolve (declared : NamespacePath) (symbol : String) (written : NamespacePath)
    (context : Option NamespacePath) (policy : Policy) : Qualification :=
  if policy.excludesNamespace declared || policy.excludesSymbol declared symbol then
    .unchanged
  else if written = declared then
    .unchanged
  else
    let visible := policy.visibleLength declared symbol
    let kept := NamespacePath.sharedLength written.segments.reverse
      (declared.segments.take visible).reverse
    let implied := (context.map (·.commonLength declared)).getD 0
    let stop := visible - kept
    let replaced := written.length - kept
    if stop ≤ implied then
      .unchanged
    else if replaced = 0 then
      .insert (declared.qualifier implied stop)
    else
      .replace replaced (declared.qualifier implied stop)

end Requalify
