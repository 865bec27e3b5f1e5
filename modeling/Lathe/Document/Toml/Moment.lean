import Lathe.Decimal.Notation
import Lathe.Document.Toml.Number

/-!
# Dates and times of TOML documents

A `Moment` is a date, a time of day, or a date with a time, which may know how far its clock is
from universal time.  `Moment.read?` takes several spellings: the letters in either case, a blank
for the letter between date and time, and as many digits of a second as there are.
`Moment.text` has one form for each moment: capital letters, no more digits of a second than are
needed, and no sign on an offset of zero but plus.
-/

namespace Lathe

namespace Document

namespace Toml

/-- A day of the calendar. -/
structure Date where
  /-- The year, from 0 to 9999. -/
  year : Nat
  /-- The month, from 1 to 12. -/
  month : Nat
  /-- The day of the month, from 1. -/
  day : Nat
  deriving DecidableEq, Repr

/-- A time of day. -/
structure TimeOfDay where
  /-- The hour, from 0 to 23. -/
  hour : Nat
  /-- The minute, from 0 to 59. -/
  minute : Nat
  /-- The second, from 0 to 60: a minute may have one more. -/
  second : Nat
  /-- Nanoseconds that have passed of the second. -/
  nanosecond : Nat
  deriving DecidableEq, Repr

/-- How far a clock is from universal time. -/
inductive Offset where
  /-- It shows universal time. -/
  | universal
  /-- It is ahead by so many minutes. -/
  | minutes (ahead : Int)
  deriving DecidableEq, Repr

/-- A date, a time of day, or both. -/
inductive Moment where
  /-- A date. -/
  | date (d : Date)
  /-- A time of day. -/
  | time (t : TimeOfDay)
  /-- A date with a time, and the offset of the clock if that is known. -/
  | dateTime (d : Date) (t : TimeOfDay) (offset : Option Offset)
  deriving DecidableEq, Repr

/-! ### Writing -/

/-- The date with hyphens. -/
def Date.text (d : Date) : String :=
  Decimal.padded 4 d.year ++ "-" ++ Decimal.padded 2 d.month ++ "-" ++ Decimal.padded 2 d.day

namespace TimeOfDay

/-- The fraction of a second with its point, without zeros at its end. -/
def fractionText (nanosecond : Nat) : String :=
  if nanosecond = 0 then ""
  else
    let digits := (Decimal.padded 9 nanosecond).toList
    "." ++ String.ofList (digits.reverse.dropWhile (· = '0')).reverse

/-- The time with colons. -/
def text (t : TimeOfDay) : String :=
  Decimal.padded 2 t.hour ++ ":" ++ Decimal.padded 2 t.minute ++ ":" ++
    Decimal.padded 2 t.second ++ fractionText t.nanosecond

end TimeOfDay

/-- The letter of universal time, or hours and minutes with a sign. -/
def Offset.text : Offset → String
  | universal => "Z"
  | minutes m =>
    (if m < 0 then "-" else "+") ++
      Decimal.padded 2 (m.natAbs / 60) ++ ":" ++ Decimal.padded 2 (m.natAbs % 60)

/-- The written form of a moment. -/
def Moment.text : Moment → String
  | date d => d.text
  | time t => t.text
  | dateTime d t offset => d.text ++ "T" ++ t.text ++ (offset.map Offset.text).getD ""

/-! ### Reading -/

/-- So many decimal digits that give a number in a range. -/
def number (count low high : Nat) (cs : List Char) : Option (Nat × List Char) :=
  let ds := cs.take count
  let n := digitsValue 10 ds
  if ds.length = count ∧ ds.all Char.isDigit ∧ low ≤ n ∧ n ≤ high then some (n, cs.drop count)
  else none

/-- One given character. -/
def mark (c : Char) : List Char → Option (List Char)
  | d :: cs => if c = d then some cs else none
  | [] => none

namespace Date

/-- The number of days of a month. -/
def daysIn (year month : Nat) : Nat :=
  if month = 2 then
    if year % 4 = 0 ∧ (year % 100 ≠ 0 ∨ year % 400 = 0) then 29 else 28
  else if month = 4 ∨ month = 6 ∨ month = 9 ∨ month = 11 then 30
  else 31

/-- A day that the calendar has. -/
def read? (cs : List Char) : Option (Date × List Char) := do
  let (year, cs) ← number 4 0 9999 cs
  let (month, cs) ← number 2 1 12 (← mark '-' cs)
  let (day, cs) ← number 2 1 (daysIn year month) (← mark '-' cs)
  return (⟨year, month, day⟩, cs)

end Date

namespace TimeOfDay

/-- The nanoseconds in the digits after the point; what is shorter is cut off. -/
def nanoseconds (ds : List Char) : Nat :=
  let kept := ds.take 9
  digitsValue 10 kept * Nat.pow 10 (9 - kept.length)

/-- The fraction of a second with its point, if it is there. -/
def fraction : List Char → Nat × List Char
  | '.' :: c :: cs =>
    if c.isDigit then
      (nanoseconds (c :: cs.takeWhile Char.isDigit), cs.dropWhile Char.isDigit)
    else (0, '.' :: c :: cs)
  | cs => (0, cs)

/-- A time of day, to the second at least. -/
def read? (cs : List Char) : Option (TimeOfDay × List Char) := do
  let (hour, cs) ← number 2 0 23 cs
  let (minute, cs) ← number 2 0 59 (← mark ':' cs)
  let (second, cs) ← number 2 0 60 (← mark ':' cs)
  let (nanosecond, cs) := fraction cs
  return (⟨hour, minute, second, nanosecond⟩, cs)

end TimeOfDay

namespace Offset

/-- Hours and minutes after their sign, in minutes. -/
def clock (cs : List Char) : Option (Nat × List Char) := do
  let (hours, cs) ← number 2 0 23 cs
  let (more, cs) ← number 2 0 59 (← mark ':' cs)
  return (60 * hours + more, cs)

/-- The offset after a time, if it is there. -/
def read? : List Char → Option (Option Offset × List Char)
  | 'Z' :: cs | 'z' :: cs => some (some .universal, cs)
  | '+' :: cs => (clock cs).map fun (n, rest) => (some (.minutes n), rest)
  | '-' :: cs => (clock cs).map fun (n, rest) => (some (.minutes (-n)), rest)
  | cs => some (none, cs)

end Offset

namespace Moment

/-- What a date begins: a moment with a time if one follows, else the date by itself. -/
def after (d : Date) (cs : List Char) : Option (Moment × List Char) :=
  match cs with
  | c :: rest =>
    if c = 'T' ∨ c = 't' ∨ c = ' ' then
      match TimeOfDay.read? rest with
      | some (t, rest) => (Offset.read? rest).map fun (o, rest) => (.dateTime d t o, rest)
      | none => some (.date d, cs)
    else some (.date d, cs)
  | [] => some (.date d, [])

/-- A date, a time of day, or both, and what follows. -/
def read? (cs : List Char) : Option (Moment × List Char) :=
  match Date.read? cs with
  | some (d, rest) => after d rest
  | none => (TimeOfDay.read? cs).map fun (t, rest) => (.time t, rest)

end Moment

end Toml

end Document

end Lathe
