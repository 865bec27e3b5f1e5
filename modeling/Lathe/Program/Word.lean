import Lathe.Decimal.Numeral
import Lathe.Program.Code
import Lathe.Text.Capital

/-!
# Address words

A program line is a row of *items*: a letter, blanks, and the longest run of digits, points and
signs after them.  Everything else between items is passed over.  An item whose letter is an
`Address` is a word, and its literal has to be a number in the range of that address; items with
other letters mean nothing here.

Comments go first: `;` hides the rest of the line and parentheses hide what they enclose.
-/

namespace Lathe

/-- The letters that mean something. -/
inductive Address where
  | g | m | n | x | z | u | w | f | r | p | q
  deriving DecidableEq, Repr

namespace Address

/-- Every address. -/
def all : List Address := [g, m, n, x, z, u, w, f, r, p, q]

/-- The capital letter of an address. -/
def letter : Address → Char
  | g => 'G'
  | m => 'M'
  | n => 'N'
  | x => 'X'
  | z => 'Z'
  | u => 'U'
  | w => 'W'
  | f => 'F'
  | r => 'R'
  | p => 'P'
  | q => 'Q'

/-- The address of a capital letter. -/
def ofLetter? (c : Char) : Option Address :=
  all.find? fun a => a.letter == c

theorem ofLetter?_letter (a : Address) : ofLetter? a.letter = some a := by
  cases a <;> rfl

end Address

/-- Why a line cannot be read. -/
inductive Fault (α : Type) where
  /-- The literal of a word is not a number. -/
  | malformedNumber (address : Address) (literal : String)
  /-- A line label is not a natural number in range. -/
  | badLabel (literal : String)
  /-- A G or M code is out of range. -/
  | badCode (address : Address) (value : α)
  deriving DecidableEq, Repr

/-- An address with its value. -/
structure Word (α : Type) where
  /-- The letter. -/
  address : Address
  /-- The number after it. -/
  value : α
  deriving DecidableEq, Repr

/-! ### Comments -/

/-- Leave out comments; `inside` says that a parenthesis is open.  One that is never closed hides
the rest of the line. -/
def uncommented (inside : Bool) : List Char → List Char
  | [] => []
  | c :: cs =>
    if inside then uncommented (c != ')') cs
    else if c = ';' then []
    else if c = '(' then uncommented true cs
    else c :: uncommented false cs

/-- A text without its comments. -/
def stripComments (text : String) : String :=
  String.ofList (uncommented false text.toList)

/-! ### Items -/

/-- A letter with the characters of a number after it. -/
structure Item where
  /-- The letter. -/
  letter : Char
  /-- The run of digits, points and signs. -/
  literal : List Char
  deriving DecidableEq, Repr

namespace Item

/-- May stand between a letter and its literal. -/
def isGap (c : Char) : Bool :=
  c = ' ' || c = '\t'

/-- May stand in a literal. -/
def isLiteral (c : Char) : Bool :=
  c.isDigit || c = '.' || c = '-' || c = '+'

/-- The items of a line, left to right. -/
def split : List Char → List Item
  | [] => []
  | c :: cs =>
    if c.isAlpha then
      let body := cs.dropWhile isGap
      ⟨c, body.takeWhile isLiteral⟩ :: split (body.dropWhile isLiteral)
    else split cs
termination_by cs => cs.length
decreasing_by
  · have h₁ := (List.dropWhile_suffix (l := cs) isGap).length_le
    have h₂ := (List.dropWhile_suffix (l := cs.dropWhile isGap) isLiteral).length_le
    simp only [List.length_cons]
    omega
  · simp

end Item

/-! ### Words -/

namespace Word

/-- Line labels and G codes go up to here. -/
def codeLimit : Nat := 4294967295

variable {α : Type} [Scalar α]

/-- The natural number that a value is, if it is one that a label may have. -/
def label? (v : α) : Option Nat :=
  (Scalar.toNat? v).filter (· ≤ codeLimit)

/-- The M code that a value is, if it is one. -/
def aux? (v : α) : Option AuxCode :=
  ((Scalar.toNat? v).filter (· ≤ AuxCode.limit)).map AuxCode.mk

/-- A G code lies between zero and the limit and need not be whole. -/
def isPreparatory (v : α) : Bool :=
  decide (0.0 ≤ v) && decide (v ≤ Scalar.ofNat codeLimit)

/-- The value is in the range of its address. -/
def inRange (a : Address) (v : α) : Bool :=
  match a with
  | .n => (label? v).isSome
  | .m => (aux? v).isSome
  | .g => isPreparatory v
  | _ => true

/-- What is wrong with a value out of range. -/
def rangeFault (a : Address) (literal : List Char) (v : α) : Fault α :=
  match a with
  | .n => .badLabel (String.ofList literal)
  | _ => .badCode a v

/-- Read the literal of an address. -/
def read (a : Address) (literal : List Char) : Except (Fault α) (Word α) :=
  match Decimal.Numeral.ofChars? literal with
  | none => .error (.malformedNumber a (String.ofList literal))
  | some numeral =>
    let v : α := numeral.value
    if !Scalar.isFinite v then .error (.malformedNumber a (String.ofList literal))
    else if inRange a v then .ok ⟨a, v⟩
    else .error (rangeFault a literal v)

/-- Read an item; one whose letter is no address gives no word, whatever its literal. -/
def ofItem (i : Item) : Except (Fault α) (Option (Word α)) :=
  match Address.ofLetter? i.letter with
  | none => .ok none
  | some a => (read a i.literal).map some

end Word

end Lathe
