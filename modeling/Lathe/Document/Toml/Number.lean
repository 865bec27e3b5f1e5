import Lathe.Decimal.Numeral
import Lathe.Document.Json.Reader

/-!
# Numbers of TOML documents

A whole number is decimal with an optional sign, or has the mark of another base; it has to fit 64
bits with a sign.  A real number has a fraction or an exponent and is read correctly rounded; one
above all finite values is refused.  Underscores may stand between digits.
-/

namespace Lathe

namespace Document

namespace Toml

/-- Digits with single underscores between them, after the first digit: what is left of them,
last one first, and what follows. -/
def moreDigits (isDigit : Char → Bool) (digits : List Char) :
    List Char → Option (List Char × List Char)
  | '_' :: c :: cs => if isDigit c then moreDigits isDigit (c :: digits) cs else none
  | '_' :: [] => none
  | c :: cs => if isDigit c then moreDigits isDigit (c :: digits) cs else some (digits, c :: cs)
  | [] => some (digits, [])

/-- One digit or more, with single underscores between them. -/
def digits (isDigit : Char → Bool) : List Char → Option (List Char × List Char)
  | c :: cs =>
    if isDigit c then (moreDigits isDigit [c] cs).map fun (ds, rest) => (ds.reverse, rest)
    else none
  | [] => none

/-- The digits of a decimal whole number: zero stands alone. -/
def decimalDigits : List Char → Option (List Char × List Char)
  | '0' :: cs => some (['0'], cs)
  | cs => digits Char.isDigit cs

/-- The number that digits of a base stand for. -/
def digitsValue (base : Nat) (ds : List Char) : Nat :=
  ds.foldl (fun n c => base * n + (Json.hexDigit? c).getD 0) 0

/-- A whole number if it fits 64 bits with a sign. -/
def fitting? (n : Int) : Option Value :=
  if -Nat.pow 2 63 ≤ n ∧ n < Nat.pow 2 63 then some (.int n) else none

/-- A whole number of another base after its mark. -/
def based (base : Nat) (isDigit : Char → Bool) (cs : List Char) : Option (Value × List Char) := do
  let (ds, rest) ← digits isDigit cs
  let v ← fitting? (digitsValue base ds)
  return (v, rest)

/-- The exponent of a real number, after its letter. -/
def exponent (cs : List Char) : Option (Int × List Char) := do
  let (negative, body) := Decimal.Numeral.takeSign cs
  let (ds, rest) ← digits Char.isDigit body
  let n : Int := digitsValue 10 ds
  return (if negative then -n else n, rest)

/-- The exponent with its letter, if it is there. -/
def exponent? : List Char → Option (Option Int × List Char)
  | 'e' :: cs | 'E' :: cs => (exponent cs).map fun (e, rest) => (some e, rest)
  | cs => some (none, cs)

/-- The fraction with its point, if it is there. -/
def fraction? : List Char → Option (Option (List Char) × List Char)
  | '.' :: cs => (digits Char.isDigit cs).map fun (ds, rest) => (some ds, rest)
  | cs => some (none, cs)

/-- Decimal exponents beyond this one, counted from the first digit, are out of reach of every
finite value. -/
def exponentReach : Nat := 400

/-- The value of digits times a power of ten, correctly rounded. -/
def realValue (ds : List Char) (e : Int) : Float :=
  let n := digitsValue 10 ds
  let top := e + ds.length
  if n = 0 ∨ top < -exponentReach then 0.0
  else if exponentReach + ds.length < top then 1.0 / 0.0
  else Float.ofScientific n (decide (e < 0)) e.natAbs

/-- A real number, given its sign and whole part. -/
def real? (negative : Bool) (whole : List Char) (fraction : Option (List Char)) (e : Option Int) :
    Option Value :=
  let f := fraction.getD []
  let x := realValue (whole ++ f) (e.getD 0 - f.length)
  if negative then some (.real (-x)) else if x.isFinite then some (.real x) else none

/-- A decimal number, whole or real, or the name of a value that is not finite. -/
def decimal (cs : List Char) : Option (Value × List Char) :=
  let (negative, body) := Decimal.Numeral.takeSign cs
  match body with
  | 'i' :: 'n' :: 'f' :: rest => some (.real (if negative then -(1.0 / 0.0) else 1.0 / 0.0), rest)
  | 'n' :: 'a' :: 'n' :: rest => some (.real (0.0 / 0.0), rest)
  | body => do
    let (whole, rest) ← decimalDigits body
    let (fraction, rest) ← fraction? rest
    let (e, rest) ← exponent? rest
    let n : Int := digitsValue 10 whole
    let v ← if fraction.isSome || e.isSome then real? negative whole fraction e
      else fitting? (if negative then -n else n)
    return (v, rest)

end Toml

end Document

end Lathe
