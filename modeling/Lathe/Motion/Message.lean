import Lathe.Decimal.Notation
import Lathe.Motion.Contour

/-!
# Messages about contours

The wording of a label that a cycle cannot use.
-/

namespace Lathe

namespace LabelError

/-- The message for the operator. -/
def message : LabelError Float → String
  | unresolved label => "Unresolved block label N" ++ Decimal.natText label
  | notALabel v => "Label value " ++ Decimal.plain.write v ++ " is not a block number"

end LabelError

end Lathe
