import Lathe.Scalar.Basic

/-!
# Decimal numerals

The literal of an address word: an optional sign, digits, and an optional point that may stand
before, between or after the digits.  At least one digit is needed.  `Numeral.ofChars?` accepts
exactly these texts, and `Numeral.value` reads them as a scalar, correctly rounded.
-/

namespace Lathe

namespace Decimal

/-- A decimal numeral taken apart. -/
structure Numeral where
  /-- It starts with a minus sign. -/
  negative : Bool
  /-- All digits, as one number. -/
  mantissa : Nat
  /-- How many of the digits stand after the point. -/
  places : Nat
  deriving DecidableEq, Repr

namespace Numeral

/-- Take an optional sign off the front; the flag says that it is a minus. -/
def takeSign : List Char → Bool × List Char
  | '-' :: cs => (true, cs)
  | '+' :: cs => (false, cs)
  | cs => (false, cs)

/-- The number that decimal digits stand for. -/
def digitsValue (cs : List Char) : Nat :=
  cs.foldl (fun n c => 10 * n + (c.toNat - '0'.toNat)) 0

/-- Read a whole text as a numeral. -/
def ofChars? (cs : List Char) : Option Numeral :=
  let (negative, body) := takeSign cs
  let whole := body.takeWhile Char.isDigit
  match body.dropWhile Char.isDigit with
  | [] => if whole.isEmpty then none else some ⟨negative, digitsValue whole, 0⟩
  | '.' :: fraction =>
    if fraction.all Char.isDigit && !(whole.isEmpty && fraction.isEmpty) then
      some ⟨negative, digitsValue (whole ++ fraction), fraction.length⟩
    else none
  | _ :: _ => none

/-- The value of a numeral. -/
def value {α : Type} [Scalar α] (n : Numeral) : α :=
  let magnitude : α := OfScientific.ofScientific n.mantissa true n.places
  if n.negative then -magnitude else magnitude

end Numeral

end Decimal

end Lathe
