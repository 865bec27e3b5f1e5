import Lathe.Scalar.Basic
import Lathe.Decimal.Binary

/-!
# Binary64 scalars

The instance of `Scalar` that runs.  Its `ceil` saturates at `2 ^ 64 - 1`.  With values that pass
their checks this limit can be reached: a largest angle of `1e-30` asks for more steps of an arc
than there are counts.  A rule whose outcome depends on such a limit has it in its own definition,
so that it is the same over every scalar type (`Arc.stepCount`, `Roughing.passesBetween`).
-/

namespace Lathe

namespace Scalar

instance : Scalar Float where
  decLt := Float.decLt
  decLe := Float.decLe
  ofNat n := Float.ofNat n
  abs := Float.abs
  sqrt := Float.sqrt
  sin := Float.sin
  cos := Float.cos
  atan2 := Float.atan2
  pow := Float.pow
  pi := 3.14159265358979323846
  unbounded := 1.0 / 0.0
  isFinite := Float.isFinite
  ceil x := x.ceil.toUInt64.toNat
  toNat? x := (Decimal.Binary.ofFloat x).toNat?

end Scalar

end Lathe
