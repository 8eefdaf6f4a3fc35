import Requalify.NamespacePath
import Requalify.Text.Offset

/-!
A qualifier as it is spelled, with the place of each of its names. Its path is what
`NamespacePath.parse` reads from the same text; the places tell where text can be inserted and which
part the first names cover.
-/

namespace Requalify

/-- A name with offsets from the start of the qualifier; `stop` lies after the `::` that follows. -/
structure WrittenName where
  text : String
  start : Nat
  stop : Nat
  deriving DecidableEq

structure WrittenQualifier where
  span : Span
  /-- The offset after a leading `::`. -/
  leading : Option Nat
  names : List WrittenName
  deriving DecidableEq

namespace WrittenQualifier

/-- The names in the pieces between separators, the first of which starts at `offset`. -/
def namesFrom (offset : Nat) : List (List Char) → List WrittenName
  | [] => []
  | piece :: rest =>
      let size := Text.byteLength piece
      let stop := if rest.isEmpty then offset + size else offset + size + 2
      let more := namesFrom (offset + size + 2) rest
      if (Text.trim piece).isEmpty then more
      else
        { text := String.ofList (Text.trim piece)
          start := offset + (size - Text.byteLength (Text.trimStart piece))
          stop := stop } :: more

def readText (text : List Char) (span : Span) : WrittenQualifier :=
  let pieces := NamespacePath.pieces text
  let leading := match pieces with
    | first :: _ :: _ =>
        if (Text.trim first).isEmpty then some (Text.byteLength first + 2) else none
    | _ => none
  { span := span, leading := leading, names := namesFrom 0 pieces }

/-- Read the part of `text` that `span` covers; a span that cuts a character covers nothing. -/
def read (text : String) (span : Span) : WrittenQualifier :=
  readText ((Text.slice? text.toList span).getD []) span

def path (qualifier : WrittenQualifier) : NamespacePath :=
  ⟨qualifier.names.map (·.text)⟩

/-- Where a qualifier is inserted: after a leading `::`, or else in front. -/
def insertionPoint (qualifier : WrittenQualifier) : Nat :=
  qualifier.span.start + qualifier.leading.getD 0

/-- The span of the first `count` names with their separators; all names if there are fewer. -/
def leadingSpan (qualifier : WrittenQualifier) (count : Nat) : Span :=
  let names := qualifier.names.take count
  match names.head?, names.getLast? with
  | some first, some last =>
      Span.between (qualifier.span.start + first.start) (qualifier.span.start + last.stop)
  | _, _ => Span.point qualifier.insertionPoint

end WrittenQualifier

end Requalify
