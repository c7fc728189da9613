import Semant.Number.Text

/-! The bytes that the print primitives of the language write. -/

namespace Semant.Print

/-- A value to print. A text is a run of bytes that ends before its first zero byte, or absent. -/
inductive Value where
  | float (x : Binary64)
  | int (i : Int32)
  | uint (n : UInt32)
  | char (byte : UInt8)
  | bool (b : Bool)
  | text (bytes : Option (List UInt8))

def bytes : Value → List UInt8
  | .float x => x.printText.toUTF8.toList
  | .int i => (toString i.toInt).toUTF8.toList
  | .uint n => (toString n.toNat).toUTF8.toList
  | .char byte => [byte]
  | .bool b => (if b then "true" else "false").toUTF8.toList
  | .text none => []
  | .text (some bytes) => bytes.takeWhile (· != 0)

/-- The bytes of a value and a line feed. -/
def lineBytes (value : Value) : List UInt8 :=
  bytes value ++ [10]

end Semant.Print
