import Lathe.Document.Json.Printer
import Lathe.Document.Toml.Text

/-!
# Printing TOML documents

A table is printed as lines with its own values and then a header for each table inside it.
Whole numbers have to fit 64 bits with a sign, and there is no form for a value that is missing.
-/

namespace Lathe

namespace Document

namespace Toml

/-- Real numbers in TOML. -/
def realLayout : Decimal.Layout where
  exponentFrom := some 16
  exponentBelow := some (-5)
  exponentPlus := false
  keepsPoint := true
  tie := .even
  notANumber := "nan"
  infinite := "inf"
  infiniteSign := true

/-- The written form of one character of a text. -/
def writtenChar (c : Char) : List Char :=
  if c.toNat = 0x7F then ['\\', 'u', '0', '0', '7', 'f'] else Json.escaped c

/-- A text in quotes. -/
def quoted (s : String) : String :=
  "\"" ++ String.ofList (s.toList.flatMap writtenChar) ++ "\""

/-- A name, in quotes if it needs them. -/
def writtenName (s : String) : String :=
  if s ≠ "" ∧ s.toList.all isBare then s else quoted s

mutual

/-- A value on one line. -/
def inline? : Value → Option String
  | .null | .unreadable => none
  | .bool b => some (if b then "true" else "false")
  | .int n => if -Nat.pow 2 63 ≤ n ∧ n < Nat.pow 2 63 then some (Decimal.intText n) else none
  | .real x => some (realLayout.write x)
  | .text s => some (quoted s)
  | .date s => some s
  | .list items => (inlineItems? items).map fun parts => "[" ++ ", ".intercalate parts ++ "]"
  | .table entries =>
    (inlineEntries? entries).map fun parts => "\x7b" ++ ", ".intercalate parts ++ "\x7d"

/-- The items of a list on one line. -/
def inlineItems? : List Value → Option (List String)
  | [] => some []
  | v :: vs => do
    let part ← inline? v
    let parts ← inlineItems? vs
    return part :: parts

/-- The entries of a table on one line. -/
def inlineEntries? : List (String × Value) → Option (List String)
  | [] => some []
  | (name, v) :: es => do
    let part ← inline? v
    let parts ← inlineEntries? es
    return (writtenName name ++ " = " ++ part) :: parts

end

mutual

/-- The values that a table gives itself, one line each. -/
def ownLines? : List (String × Value) → Option (List String)
  | [] => some []
  | (_, .table _) :: es => ownLines? es
  | (name, v) :: es => do
    let part ← inline? v
    let parts ← ownLines? es
    return (writtenName name ++ " = " ++ part) :: parts

/-- The tables inside a table, each under its header. -/
def innerLines? (path : List String) : List (String × Value) → Option (List String)
  | [] => some []
  | (name, .table entries) :: es => do
    let path' := path ++ [writtenName name]
    let own ← ownLines? entries
    let inner ← innerLines? path' entries
    let parts ← innerLines? path es
    return ["", "[" ++ ".".intercalate path' ++ "]"] ++ own ++ inner ++ parts
  | _ :: es => innerLines? path es

end

/-- A document, if all of it has a form. -/
def print? : Value → Option String
  | .table entries => do
    let own ← ownLines? entries
    let inner ← innerLines? [] entries
    return "\n".intercalate (own ++ inner) ++ "\n"
  | _ => none

end Toml

end Document

end Lathe
