/-!
# Scalars

Coordinates, feeds, angles and speeds are *scalars*.  Every rule of this library that measures
or moves something is written once for any type with the operations of `Scalar`:

* over `Float` the rules run (`Lathe.Scalar.Binary64`);
* over an ordered field they are the exact rules that the theory speaks about.

Literals with a point, such as `0.5` or `1e-9`, are read through `OfScientific`, so a constant is
the correctly rounded value over `Float` and the exact fraction over a field.

The comparisons are decidable propositions.  Where a value is *not a number*, both `a < b` and
`a ≤ b` fail, also for `a ≤ a`; `Scalar.max`, `Scalar.min` and `Scalar.least` pass over such
values.
-/

namespace Lathe

/-- The operations that paths, cycles and playback need of a number. -/
class Scalar (α : Type) where
  /-- Sums. -/
  [toAdd : Add α]
  /-- Differences. -/
  [toSub : Sub α]
  /-- Products. -/
  [toMul : Mul α]
  /-- Quotients. -/
  [toDiv : Div α]
  /-- Opposites. -/
  [toNeg : Neg α]
  /-- Literals with a point. -/
  [toOfScientific : OfScientific α]
  /-- Less-than. -/
  [toLT : LT α]
  /-- At-most. -/
  [toLE : LE α]
  /-- Less-than can be decided. -/
  decLt : DecidableLT α
  /-- At-most can be decided. -/
  decLe : DecidableLE α
  /-- A natural number as a scalar. -/
  ofNat : Nat → α
  /-- The absolute value. -/
  abs : α → α
  /-- The square root. -/
  sqrt : α → α
  /-- The sine of an angle in radians. -/
  sin : α → α
  /-- The cosine of an angle in radians. -/
  cos : α → α
  /-- The angle of the vector with the given ordinate and abscissa, in `[-π, π]`. -/
  atan2 : α → α → α
  /-- The first value raised to the second. -/
  pow : α → α → α
  /-- Half a turn in radians. -/
  pi : α
  /-- A value above every other, where there is one; stands for "no limit". -/
  unbounded : α
  /-- Neither infinite nor not-a-number. -/
  isFinite : α → Bool
  /-- The least natural number that is not below the value, saturating where there is none;
  zero for negative values and for what is not a number. -/
  ceil : α → Nat
  /-- The natural number that the value is, if it is one. -/
  toNat? : α → Option Nat

namespace Scalar

variable {α : Type} [Scalar α]

-- of low priority, so that a type with operations of its own is written with them
instance (priority := low) : Add α := toAdd

instance (priority := low) : Sub α := toSub

instance (priority := low) : Mul α := toMul

instance (priority := low) : Div α := toDiv

instance (priority := low) : Neg α := toNeg

instance (priority := low) : OfScientific α := toOfScientific

instance (priority := low) : LT α := toLT

instance (priority := low) : LE α := toLE

instance (priority := low) : DecidableLT α := decLt

instance (priority := low) : DecidableLE α := decLe

/-- The larger of two scalars; a value that is not a number loses, and of two equal values the
second is taken. -/
@[inline] def max (a b : α) : α :=
  if b < a then a else if b ≤ b then b else a

/-- The smaller of two scalars; a value that is not a number loses, and of two equal values the
second is taken. -/
@[inline] def min (a b : α) : α :=
  if a < b then a else if b ≤ b then b else a

/-- The smallest of a list of scalars, passing over what is not a number; `unbounded` if none
is left. -/
def least : List α → α
  | [] => unbounded
  | a :: as =>
    let m := as.foldl min a
    if m ≤ m then m else unbounded

/-- Finite and above zero. -/
def isPositive (a : α) : Bool :=
  isFinite a && decide (0.0 < a)

end Scalar

end Lathe
