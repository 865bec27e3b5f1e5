import Lathe.Decimal.Notation
import Lathe.Document.Value

/-!
# Printing JSON documents

`Json.pretty` gives every item and every entry a line of its own, indented by two blanks a level;
`Json.compact` uses no blanks at all.  Real numbers have the fewest digits that read back, always
with a point or an exponent, so that a reader tells them from whole numbers; those that are not
finite have no form in JSON and become `null`.
-/

namespace Lathe

namespace Document

namespace Json

/-- Real numbers in JSON: positional from `1e-5` up to `1e+16`, with a point. -/
def realLayout : Decimal.Layout where
  exponentFrom := some 16
  exponentBelow := some (-5)
  exponentPlus := true
  keepsPoint := true
  tie := .even
  notANumber := "null"
  infinite := "null"
  infiniteSign := false

/-- Two hexadecimal digits. -/
def hexPair (n : Nat) : List Char :=
  [Nat.digitChar (n / 16), Nat.digitChar (n % 16)]

/-- The written form of one character of a text. -/
def escaped (c : Char) : List Char :=
  if c = '"' then ['\\', '"']
  else if c = '\\' then ['\\', '\\']
  else if c = '\x08' then ['\\', 'b']
  else if c = '\x0c' then ['\\', 'f']
  else if c = '\n' then ['\\', 'n']
  else if c = '\r' then ['\\', 'r']
  else if c = '\t' then ['\\', 't']
  else if c.toNat < 0x20 then ['\\', 'u', '0', '0'] ++ hexPair c.toNat
  else [c]

/-- A text in quotes. -/
def quoted (s : String) : String :=
  "\"" ++ String.ofList (s.toList.flatMap escaped) ++ "\""

/-- How the parts of lists and tables are set apart. -/
structure Spacing where
  /-- A new line at a depth. -/
  newline : Nat → String
  /-- Between a name and its value. -/
  colon : String

/-- No blanks. -/
def Spacing.tight : Spacing := ⟨fun _ => "", ":"⟩

/-- One line for each part, indented by two blanks a level. -/
def Spacing.lined : Spacing :=
  ⟨fun depth => "\n" ++ String.ofList (List.replicate (2 * depth) ' '), ": "⟩

/-- Brackets around parts; without parts they stand together. -/
def bracketed (sp : Spacing) (depth : Nat) (opening closing : String) (parts : List String) :
    String :=
  if parts.isEmpty then opening ++ closing
  else
    opening ++ sp.newline (depth + 1) ++ ("," ++ sp.newline (depth + 1)).intercalate parts ++
      sp.newline depth ++ closing

mutual

/-- A value at a depth. -/
def printAt (sp : Spacing) (depth : Nat) : Value → String
  | .null | .unreadable => "null"
  | .bool b => if b then "true" else "false"
  | .int n => Decimal.intText n
  | .real x => realLayout.write x
  | .text s | .date s => quoted s
  | .list items => bracketed sp depth "[" "]" (printItems sp depth items)
  | .table entries => bracketed sp depth "\x7b" "\x7d" (printEntries sp depth entries)

/-- The items of a list at a depth. -/
def printItems (sp : Spacing) (depth : Nat) : List Value → List String
  | [] => []
  | v :: vs => printAt sp (depth + 1) v :: printItems sp depth vs

/-- The entries of a table at a depth. -/
def printEntries (sp : Spacing) (depth : Nat) : List (String × Value) → List String
  | [] => []
  | (name, v) :: es =>
    (quoted name ++ sp.colon ++ printAt sp (depth + 1) v) :: printEntries sp depth es

end

/-- A value on one line. -/
def compact (v : Value) : String := printAt .tight 0 v

/-- A value on indented lines. -/
def pretty (v : Value) : String := printAt .lined 0 v

end Json

end Document

end Lathe
