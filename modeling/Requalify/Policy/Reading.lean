import Requalify.Data
import Requalify.Policy

/-!
Reading a policy from untyped values. What is left out keeps its standard value; one value of a wrong
form refuses the whole policy.
-/

namespace Requalify

def SymbolException.ofData? (exact : Bool) (data : Data) : Option SymbolException :=
  match data.fields? exact ["root", "symbol"] with
  | some [some root, some symbol] => do return ⟨← root.text?, ← symbol.text?⟩
  | _ => none

namespace InvisibleSuffix

def ofPathEntry? (entries : List (String × Data)) : Option InvisibleSuffix := do
  let names ← (← Data.value? entries "path").texts?
  let symbols ← Data.optional? (Data.value? entries "symbols") [] Data.texts?
  return .path names symbols

/-- A table with the text `prefix` is that rule whatever else it holds; any other needs a path. -/
def ofData? : Data → Option InvisibleSuffix
  | .table entries =>
      match Data.value? entries "prefix" with
      | some (.text text) => some (.startingWith text)
      | _ => ofPathEntry? entries
  | _ => none

end InvisibleSuffix

def Policy.ofData? (exact : Bool) (data : Data) : Option Policy :=
  match data.fields? exact
      ["targets", "namespace_exceptions", "symbol_exceptions", "invisible_suffixes"] with
  | some [targets, namespaces, symbols, suffixes] => do
      let targets ← Data.optional? targets standard.targets Data.texts?
      let namespaces ← Data.optional? namespaces standard.namespaceExceptions
        (Data.listOf? Data.texts?)
      let symbols ← Data.optional? symbols standard.symbolExceptions
        (Data.listOf? (SymbolException.ofData? exact))
      let suffixes ← Data.optional? suffixes standard.invisibleSuffixes
        (Data.listOf? InvisibleSuffix.ofData?)
      return ⟨targets, namespaces, symbols, suffixes⟩
  | _ => none

end Requalify
