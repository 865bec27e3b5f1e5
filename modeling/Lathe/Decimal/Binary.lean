/-!
# Binary64 values as exact fractions

A finite `Float` is `± m * 2 ^ q` with a natural mantissa `m` below `2 ^ 53` and an exponent `q`
of at least `-1074`.  `Binary.ofFloat` reads `m` and `q` off the bits; what is printed, rounded
or compared exactly is computed from them in `Nat`.
-/

namespace Lathe

namespace Decimal

/-- A binary64 value: a sign with a finite magnitude `mantissa * 2 ^ exponent`, an infinity, or
not a number. -/
inductive Binary where
  /-- A finite value; `negative` is kept for zero too. -/
  | finite (negative : Bool) (mantissa : Nat) (exponent : Int)
  /-- An infinity with its sign. -/
  | infinite (negative : Bool)
  /-- Not a number. -/
  | notANumber
  deriving DecidableEq, Repr

namespace Binary

/-- The value that the bits of a `Float` stand for: one sign bit, eleven bits of exponent and
fifty-two of fraction, with an implied leading one except in the lowest exponent. -/
def ofFloat (x : Float) : Binary :=
  let bits : Nat := x.toBits.toNat
  let negative := decide (bits / Nat.pow 2 63 = 1)
  let biased : Nat := bits / Nat.pow 2 52 % Nat.pow 2 11
  let fraction : Nat := bits % Nat.pow 2 52
  if biased = Nat.pow 2 11 - 1 then
    if fraction = 0 then infinite negative else notANumber
  else if biased = 0 then finite negative fraction (-1074)
  else finite negative (Nat.pow 2 52 + fraction) ((biased : Int) - 1075)

/-- The natural number that the value is, if it is one; both zeros are. -/
def toNat? : Binary → Option Nat
  | finite negative m q =>
    if m = 0 then some 0
    else if negative then none
    else if 0 ≤ q then some (m * Nat.pow 2 q.toNat)
    else if m % Nat.pow 2 (-q).toNat = 0 then some (m / Nat.pow 2 (-q).toNat)
    else none
  | infinite _ | notANumber => none

end Binary

end Decimal

end Lathe
