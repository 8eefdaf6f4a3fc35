import Requalify.Source
import Requalify.Text.Quoted

/-!
Single edits of a text, and the warnings that announce them. Each warning stands at the construct that
caused the edit and carries the edit as a fix-it.
-/

namespace Requalify

/-- Put `text` in place of `length` bytes at `offset`. -/
structure Patch where
  offset : Nat
  length : Nat
  text : String
  label : String
  deriving DecidableEq, Inhabited

namespace Patch

def insert (offset : Nat) (text label : String) : Patch :=
  ⟨offset, 0, text, label⟩

def replace (span : Span) (text label : String) : Patch :=
  ⟨span.start, span.length, text, label⟩

def remove (span : Span) (label : String) : Patch :=
  replace span "" label

def span (patch : Patch) : Span where
  start := patch.offset
  stop := patch.offset + patch.length

/-- The two patches change the text alike; labels do not count. -/
def SameEdit (left right : Patch) : Prop :=
  left.length = right.length ∧ left.text = right.text

instance (left right : Patch) : Decidable (left.SameEdit right) :=
  inferInstanceAs (Decidable (_ ∧ _))

end Patch

/-- The change that a warning proposes. -/
inductive FixIt where
  | insert (place : Location) (text : String)
  | replace (start stop : Location) (old text : String)
  | remove (start stop : Location) (old : String)
  deriving DecidableEq

namespace FixIt

def ofPatch (source : Source) (patch : Patch) : FixIt :=
  if patch.length = 0 then
    .insert (source.location patch.offset) patch.text
  else
    let start := source.location patch.span.start
    let stop := source.location patch.span.stop
    let old := source.slice patch.span
    if patch.text.isEmpty then .remove start stop old else .replace start stop old patch.text

def place (position : Text.Position) : String :=
  s!"{position.line}:{position.column}"

def text : FixIt → String
  | insert location text => s!"insert {Text.quoted text} at {place location.position}"
  | replace start stop old text =>
      s!"replace {Text.quoted old} at {place start.position}-{place stop.position} with " ++
        Text.quoted text
  | remove start stop old =>
      s!"remove {Text.quoted old} at {place start.position}-{place stop.position}"

end FixIt

structure Diagnostic where
  location : Location
  label : String
  fix : FixIt
  deriving DecidableEq

namespace Diagnostic

/-- The warning for `patch`, caused by the construct at `trigger`. -/
def ofPatch (source : Source) (patch : Patch) (trigger : Nat) : Diagnostic where
  location := source.location trigger
  label := patch.label
  fix := FixIt.ofPatch source patch

def text (diagnostic : Diagnostic) : String :=
  s!"{diagnostic.location.text}: warning: {diagnostic.label}\n    fix-it: {diagnostic.fix.text}"

end Diagnostic

end Requalify
