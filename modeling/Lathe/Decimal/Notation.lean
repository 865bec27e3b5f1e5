import Lathe.Decimal.Shortest

/-!
# Writing scalars

A `Layout` holds the decisions of one written format: where positional notation ends, whether a
whole number keeps a point and a zero, which way ties go, and what stands for a value that is not
finite.  `Layout.write` writes a `Float` with the fewest digits that read back.  `places` writes
a value with a fixed number of places instead, rounding its exact binary value.
-/

namespace Lathe

namespace Decimal

/-- The digits of a natural number. -/
def natText (n : Nat) : String :=
  String.ofList (Nat.toDigits 10 n)

/-- The digits of an integer, with a minus sign below zero. -/
def intText (n : Int) : String :=
  if n < 0 then "-" ++ natText n.natAbs else natText n.natAbs

/-- So many zeros. -/
def zeros (n : Nat) : String :=
  String.ofList (List.replicate n '0')

/-- The digits of a natural number, with zeros before them to a width. -/
def padded (width n : Nat) : String :=
  let digits := natText n
  zeros (width - digits.length) ++ digits

/-- How a scalar is written. -/
structure Layout where
  /-- Values from this power of ten on take an exponent, if given. -/
  exponentFrom : Option Int
  /-- Values below this power of ten take an exponent, if given. -/
  exponentBelow : Option Int
  /-- An exponent that is not negative has a plus sign. -/
  exponentPlus : Bool
  /-- A whole number in positional notation ends in `.0`. -/
  keepsPoint : Bool
  /-- Which of two equally short decimals is written. -/
  tie : Tie
  /-- What stands for a value that is not a number. -/
  notANumber : String
  /-- What stands for an infinite magnitude. -/
  infinite : String
  /-- A negative infinity has a sign. -/
  infiniteSign : Bool

namespace Layout

/-- The place of the leading digit. -/
def leading (d : Digits) : Int :=
  d.exponent + (digitCount d.significand : Int) - 1

/-- Positional notation. -/
def positional (l : Layout) (d : Digits) : String :=
  if 0 ≤ d.exponent then
    natText d.significand ++ zeros d.exponent.toNat ++ if l.keepsPoint then ".0" else ""
  else
    let fractional := (-d.exponent).toNat
    let unit := Nat.pow 10 fractional
    natText (d.significand / unit) ++ "." ++ padded fractional (d.significand % unit)

/-- One digit, a point if others follow, and the exponent. -/
def scientific (l : Layout) (d : Digits) : String :=
  let digits := Nat.toDigits 10 d.significand
  let head := String.ofList (digits.take 1)
  let tail := String.ofList (digits.drop 1)
  let plus := if l.exponentPlus ∧ 0 ≤ leading d then "+" else ""
  head ++ (if tail.isEmpty then "" else "." ++ tail) ++ "e" ++ plus ++ intText (leading d)

/-- A finite magnitude. -/
def magnitude (l : Layout) (d : Digits) : String :=
  let large := match l.exponentFrom with
    | some k => decide (k ≤ leading d)
    | none => false
  let small := match l.exponentBelow with
    | some k => decide (leading d < k)
    | none => false
  if d.significand ≠ 0 ∧ (large || small) then l.scientific d else l.positional d

/-- The text of a value. -/
def write (l : Layout) (x : Float) : String :=
  match Binary.ofFloat x with
  | .notANumber => l.notANumber
  | .infinite negative => (if negative && l.infiniteSign then "-" else "") ++ l.infinite
  | .finite negative m q =>
    (if negative then "-" else "") ++ l.magnitude (Digits.shortest l.tie m q)

end Layout

/-- The value of a finite magnitude in units of `10 ^ (-n)`, rounded to the nearest whole number
with a half going to the even one. -/
def roundedUnits (n : Nat) (m : Nat) (q : Int) : Nat :=
  let v := (Fraction.ofBinary m q).inUnits (-(n : Int))
  let below := v.num / v.den
  let twice := 2 * (v.num % v.den)
  if twice < v.den then below
  else if v.den < twice then below + 1
  else if below % 2 = 0 then below else below + 1

/-- The text of a value with `n` places after the point.  A negative value keeps its sign when it
rounds to zero. -/
def places (n : Nat) (x : Float) : String :=
  match Binary.ofFloat x with
  | .notANumber => "NaN"
  | .infinite negative => if negative then "-inf" else "inf"
  | .finite negative m q =>
    let units := roundedUnits n m q
    (if negative then "-" else "") ++ natText (units / Nat.pow 10 n) ++
      if n = 0 then "" else "." ++ padded n (units % Nat.pow 10 n)

/-- Scalars inside messages: positional notation at every size, no point after whole numbers. -/
def plain : Layout where
  exponentFrom := none
  exponentBelow := none
  exponentPlus := false
  keepsPoint := false
  tie := .up
  notANumber := "NaN"
  infinite := "inf"
  infiniteSign := true

end Decimal

end Lathe
