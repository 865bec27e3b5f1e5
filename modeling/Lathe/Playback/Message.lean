import Lathe.Decimal.Notation
import Lathe.Playback.Player

/-!
# Messages about playback

The wording of a speed that is refused.
-/

namespace Lathe

/-- The message for the operator. -/
def SpeedError.message : SpeedError Float → String
  | invalid v => "Invalid speed multiplier: " ++ Decimal.plain.write v

end Lathe
