import Requalify.Digest
import Requalify.FilePath
import Requalify.Text.Offset
import Requalify.Text.Position

/-! Source texts with their place in the project, and locations in them. -/

namespace Requalify

/-- A line and column of a file, with the offset that they were computed from. -/
structure Location where
  file : String
  position : Text.Position
  offset : Nat
  deriving DecidableEq

def Location.text (location : Location) : String :=
  s!"{location.file}:{location.position.line}:{location.position.column}"

structure Source where
  /-- The path for reading and writing. -/
  path : FilePath
  /-- The path as seen from the project root. -/
  relativePath : String
  text : String
  deriving DecidableEq, Inhabited

namespace Source

def digest (source : Source) : String :=
  Requalify.digest (Text.bytes source.text)

/-- The text that a span covers; nothing if it leaves the text or cuts a character. -/
def slice (source : Source) (span : Span) : String :=
  String.ofList ((Text.slice? source.text.toList span).getD [])

def location (source : Source) (offset : Nat) : Location where
  file := source.relativePath
  position := Text.position (Text.bytes source.text) offset
  offset := offset

end Source

end Requalify
