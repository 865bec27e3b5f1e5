import Lathe.Decimal.Binary

/-!
# The fewest digits that read back

The reals that round to a finite binary64 value form an interval around it.  Its ends lie half
way to the neighbouring values and belong to it exactly if the mantissa is even.
`Digits.shortest` looks for a decimal inside this interval on coarser grids first: of all grids
`10 ^ k` through the digits of the value it takes the coarsest that meets the interval, and on it
the point nearest to the value.  Everything is computed exactly in `Nat`.
-/

namespace Lathe

namespace Decimal

/-- A decimal `significand * 10 ^ exponent`. -/
structure Digits where
  /-- The digits, as one number. -/
  significand : Nat
  /-- The power of ten that the last digit counts. -/
  exponent : Int
  deriving DecidableEq, Repr

/-- Which of two equally near decimals is taken. -/
inductive Tie where
  /-- The upper one. -/
  | up
  /-- The one whose last digit is even. -/
  | even
  deriving DecidableEq, Repr

/-- The number of decimal digits; none for zero. -/
def digitCount (n : Nat) : Nat :=
  if n = 0 then 0 else digitCount (n / 10) + 1

/-- An exact positive fraction. -/
structure Fraction where
  /-- The part above the line. -/
  num : Nat
  /-- The part below the line. -/
  den : Nat
  deriving DecidableEq, Repr

namespace Fraction

/-- The fraction `m * 2 ^ q`. -/
def ofBinary (m : Nat) (q : Int) : Fraction :=
  ⟨m * Nat.pow 2 q.toNat, Nat.pow 2 (-q).toNat⟩

/-- The fraction counted in units of `10 ^ k`. -/
def inUnits (x : Fraction) (k : Int) : Fraction :=
  ⟨x.num * Nat.pow 10 (-k).toNat, x.den * Nat.pow 10 k.toNat⟩

/-- The place of the leading digit of a positive fraction: the greatest `k` with `10 ^ k` not
above it. -/
def order (x : Fraction) : Int :=
  if x.den ≤ x.num then (digitCount (x.num / x.den) : Int) - 1
  else -(digitCount ((x.den + x.num - 1) / x.num - 1) : Int)

end Fraction

namespace Digits

/-- The reals that round to `m * 2 ^ q`, with the value itself, all in quarters of `2 ^ q`.  Below
a power of two the lower neighbour is only half as far away. -/
structure Rounding where
  /-- The value. -/
  value : Fraction
  /-- The lower end. -/
  low : Fraction
  /-- The upper end. -/
  high : Fraction
  /-- The two ends round to the value too. -/
  closed : Bool

/-- The rounding interval of `m * 2 ^ q`. -/
def Rounding.of (m : Nat) (q : Int) : Rounding where
  value := .ofBinary (4 * m) (q - 2)
  low := .ofBinary (if m = Nat.pow 2 52 ∧ -1074 < q then 4 * m - 1 else 4 * m - 2) (q - 2)
  high := .ofBinary (4 * m + 2) (q - 2)
  closed := m % 2 == 0

/-- The decimal `d * 10 ^ k` rounds to the value. -/
def Rounding.holds (r : Rounding) (d : Nat) (k : Int) : Bool :=
  let low := r.low.inUnits k
  let high := r.high.inUnits k
  if r.closed then low.num ≤ d * low.den && d * high.den ≤ high.num
  else low.num < d * low.den && d * high.den < high.num

/-- The point of the grid `10 ^ k` that is nearest to the value among those that round to it. -/
def Rounding.pick? (r : Rounding) (tie : Tie) (k : Int) : Option Digits :=
  let v := r.value.inUnits k
  -- the value lies between these two points of the grid, and no other point is nearer
  let below := v.num / v.den
  let above := below + 1
  match r.holds below k, r.holds above k with
  | false, false => none
  | true, false => some ⟨below, k⟩
  | false, true => some ⟨above, k⟩
  | true, true =>
    let twice := 2 * (v.num - below * v.den)
    if twice < v.den then some ⟨below, k⟩
    else if v.den < twice then some ⟨above, k⟩
    else match tie with
      | .up => some ⟨above, k⟩
      | .even => some ⟨if below % 2 = 0 then below else above, k⟩

/-- Try the grids from `10 ^ k` downwards, at most `n` of them; the last resort is the value cut
off at the grid reached. -/
def Rounding.search (r : Rounding) (tie : Tie) (k : Int) : Nat → Digits
  | 0 =>
    let v := r.value.inUnits k
    ⟨v.num / v.den, k⟩
  | n + 1 =>
    match r.pick? tie k with
    | some d => d
    | none => r.search tie (k - 1) n

/-- Take zeros off the end of the significand, at most `n` of them. -/
def dropZeros (d : Digits) : Nat → Digits
  | 0 => d
  | n + 1 =>
    if d.significand ≠ 0 ∧ d.significand % 10 = 0 then
      dropZeros ⟨d.significand / 10, d.exponent + 1⟩ n
    else d

/-- The shortest decimal that reads back as `m * 2 ^ q`; seventeen digits always do. -/
def shortest (tie : Tie) (m : Nat) (q : Int) : Digits :=
  if m = 0 then ⟨0, 0⟩
  else
    let r := Rounding.of m q
    (r.search tie r.value.order 17).dropZeros 17

end Digits

end Decimal

end Lathe
