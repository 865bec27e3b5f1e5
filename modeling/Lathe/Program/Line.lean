import Lathe.Program.Word

/-!
# Program lines

`Line.read` reads the words of one line of text.  A line with words is a *block*; a line without
any (blank, only comments, only unknown letters) does nothing.  Of repeated words with one
address the first counts, except for G codes, of which a line may carry several.
-/

namespace Lathe

/-- The words of one program line. -/
structure Line (α : Type) where
  /-- The words, left to right. -/
  words : List (Word α)
  deriving DecidableEq, Repr

namespace Line

variable {α : Type}

/-- Read the words of all items; the first fault ends it. -/
def ofItems [Scalar α] : List Item → Except (Fault α) (List (Word α))
  | [] => .ok []
  | i :: is => do
    let word ← Word.ofItem i
    let words ← ofItems is
    return word.toList ++ words

/-- The items of a text: comments removed, letters made capital. -/
def itemsOf (text : String) : List Item :=
  Item.split (Text.capitals (uncommented false text.toList))

/-- Read a line of text. -/
def read [Scalar α] (text : String) : Except (Fault α) (Line α) :=
  (ofItems (itemsOf text)).map Line.mk

variable (l : Line α)

/-- No word at all. -/
def isEmpty : Bool :=
  l.words.isEmpty

/-- The value of the first word with the address. -/
def value? (a : Address) : Option α :=
  (l.words.find? (·.address = a)).map Word.value

/-- A word with the address is there. -/
def has (a : Address) : Bool :=
  l.words.any (·.address = a)

/-- An X or Z word is there. -/
def hasAxis : Bool :=
  l.has .x || l.has .z

/-- The values of the G words. -/
def codes : List α :=
  (l.words.filter (·.address = .g)).map Word.value

variable [Scalar α]

/-- A G word with the code is there. -/
def hasCode (n : Nat) : Bool :=
  l.codes.any fun v => Scalar.toNat? v = some n

/-- The motion that the line selects: the first of G0 to G3 on it. -/
def motion? : Option Motion :=
  l.codes.findSome? fun v => (Scalar.toNat? v).bind Motion.ofCode?

/-- The first M code. -/
def aux? : Option AuxCode :=
  (l.value? .m).bind Word.aux?

/-- The label that the line declares. -/
def label? : Option Nat :=
  (l.value? .n).bind Word.label?

end Line

end Lathe
