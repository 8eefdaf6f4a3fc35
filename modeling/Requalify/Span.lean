/-!
Ranges of byte offsets. A span is half open and never inverted.
-/

namespace Requalify

@[ext]
structure Span where
  start : Nat
  stop : Nat
  start_le_stop : start ≤ stop := by omega
  deriving DecidableEq

namespace Span

/-- The range between two offsets; an inverted pair gives the empty span at `start`. -/
def between (start stop : Nat) : Span where
  start := start
  stop := max start stop

def point (offset : Nat) : Span where
  start := offset
  stop := offset

instance : Inhabited Span := ⟨point 0⟩

def length (span : Span) : Nat :=
  span.stop - span.start

def isEmpty (span : Span) : Bool :=
  span.start == span.stop

/-- Spans that only touch do not overlap. -/
def Overlaps (left right : Span) : Prop :=
  left.start < right.stop ∧ right.start < left.stop

instance (left right : Span) : Decidable (left.Overlaps right) :=
  inferInstanceAs (Decidable (_ ∧ _))

def Contains (span : Span) (offset : Nat) : Prop :=
  span.start ≤ offset ∧ offset < span.stop

instance (span : Span) (offset : Nat) : Decidable (span.Contains offset) :=
  inferInstanceAs (Decidable (_ ∧ _))

def text (span : Span) : String :=
  s!"[{span.start}, {span.stop})"

theorem between_of_le {start stop : Nat} (ordered : start ≤ stop) :
    between start stop = ⟨start, stop, ordered⟩ := by
  ext
  · rfl
  · exact Nat.max_eq_right ordered

theorem Overlaps.symm {left right : Span} (overlap : left.Overlaps right) :
    right.Overlaps left :=
  ⟨overlap.2, overlap.1⟩

end Span

end Requalify
