import Lathe.Decimal.Numeral
import Lathe.Document.Value

/-!
# Numbers of JSON documents

A number is a whole number if it has neither point nor exponent and fits 64 bits; minus zero is
not.  Any other number is scaled: its first digits, as many as fit 64 bits, are taken as a
significand and multiplied or divided by a power of ten once.  This is fast, and it is exact for
short decimals, but the last digit of a long one may be off.  A magnitude that overflows stands
for nothing.
-/

namespace Lathe

namespace Document

namespace Json

/-- A number taken apart. -/
structure Number where
  /-- It starts with a minus sign. -/
  negative : Bool
  /-- The digits before the point. -/
  whole : List Char
  /-- The digits after the point, if there is one. -/
  fraction : Option (List Char)
  /-- The exponent, if there is one: whether it is negative, and its digits. -/
  exponent : Option (Bool × List Char)
  deriving DecidableEq, Repr

namespace Number

/-- Append digits to a significand while it fits 64 bits; gives the digits that are left too. -/
def fill (n : Nat) : List Char → Nat × List Char
  | [] => (n, [])
  | c :: cs =>
    let more := 10 * n + (c.toNat - '0'.toNat)
    if more < Nat.pow 2 64 then fill more cs else (n, c :: cs)

/-- A power of ten. -/
def powerOfTen (k : Nat) : Float :=
  Float.ofScientific 1 false k

/-- The largest power of ten that is finite. -/
def topPower : Nat := 308

/-- Multiply by a power of ten, or divide by one if the exponent is negative; nothing if the
result is too large. -/
def scale (x : Float) (e : Int) : Option Float :=
  if e.natAbs ≤ topPower then
    if 0 ≤ e then
      let y := x * powerOfTen e.natAbs
      if y.isFinite then some y else none
    else some (x / powerOfTen e.natAbs)
  else if x == 0.0 then some x
  else if 0 ≤ e then none
  else scale (x / powerOfTen topPower) (e + topPower)
termination_by (-e).toNat
decreasing_by
  simp only [topPower] at *
  omega

/-- The largest exponent that is computed with. -/
def exponentLimit : Nat := 2147483647

/-- The magnitude of a number that is not whole, given its significand and the power of ten that
the digits after it call for. -/
def magnitude? (exponent : Option (Bool × List Char)) (significand : Nat) (shift : Int) :
    Option Float :=
  let x := Float.ofNat significand
  match exponent with
  | none => scale x shift
  | some (negative, digits) =>
    let e := Decimal.Numeral.digitsValue digits
    if exponentLimit < e then
      if significand ≠ 0 ∧ negative = false then none else some 0.0
    else scale x (if negative then shift - e else shift + e)

/-- What a number stands for. -/
def value (n : Number) : Value :=
  let (filled, left) := fill 0 n.whole
  match n.fraction, n.exponent, left with
  | none, none, [] =>
    if n.negative then
      if 0 < filled ∧ filled ≤ Nat.pow 2 63 then .int (-(filled : Int))
      else .real (-(Float.ofNat filled))
    else .int filled
  | fraction, exponent, left =>
    let digits := fraction.getD []
    -- digits that found no room before the point shift the value up, used ones after it down
    let (significand, dropped) := fill filled digits
    let shift : Int := (left.length : Int) - ((digits.length - dropped.length : Nat) : Int)
    match magnitude? exponent significand shift with
    | some x => .real (if n.negative then -x else x)
    | none => .unreadable

end Number

end Json

end Document

end Lathe
