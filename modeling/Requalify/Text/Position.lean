/-!
Lines of a byte content. A position counts lines and columns from one, and a column counts bytes.
An offset past the end stands for the end. Only the line feed ends a line.
-/

namespace Requalify.Text

structure Position where
  line : Nat
  column : Nat
  deriving DecidableEq

def lineFeed : UInt8 := 10

/-- The bytes between the start of the line and `offset`, nearest first. -/
def lineBefore (content : List UInt8) (offset : Nat) : List UInt8 :=
  (content.take offset).reverse.takeWhile (· != lineFeed)

def position (content : List UInt8) (offset : Nat) : Position where
  line := 1 + (content.take offset).count lineFeed
  column := 1 + (lineBefore content offset).length

def lineStart (content : List UInt8) (offset : Nat) : Nat :=
  min offset content.length - (lineBefore content offset).length

/-- The offset after the line feed that ends the line of `offset`, or the end of the content. -/
def lineEnd (content : List UInt8) (offset : Nat) : Nat :=
  let offset := min offset content.length
  let after := content.drop offset
  let line := after.takeWhile (· != lineFeed)
  min (offset + line.length + 1) content.length

end Requalify.Text
