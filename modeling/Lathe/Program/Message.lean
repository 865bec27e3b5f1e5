import Lathe.Decimal.Notation
import Lathe.Program.Basic

/-!
# Messages about programs

The wording of a line that cannot be read.  Lines are counted from one.
-/

namespace Lathe

namespace ReadError

/-- The message for the operator. -/
def message (e : ReadError Float) : String :=
  let line := Decimal.natText e.lineNumber
  match e.fault with
  | .malformedNumber a literal =>
    "Malformed number for '" ++ a.letter.toString ++ "' at line " ++ line ++ ": '" ++ literal ++ "'"
  | .badLabel literal => "Invalid block label at line " ++ line ++ ": '" ++ literal ++ "'"
  | .badCode a v =>
    "Invalid " ++ a.letter.toString ++ " code at line " ++ line ++ ": " ++ Decimal.plain.write v

end ReadError

end Lathe
