import Lathe.Program.Line
import Lathe.Text.Blank
import Lathe.Text.Lines

/-!
# Programs

A `Source` is program text cut into lines, as the operator sees it.  A `Program` has the words of
each line; `Program.read` fails at the first line that cannot be read.  Lines are known by their
index, counted from zero; only messages count from one.

A label names the line that declares it.  Of several lines with one label the last one counts.
-/

namespace Lathe

/-- The lines of a program as text. -/
structure Source where
  /-- The lines, without what ends them. -/
  lines : Array String
  deriving DecidableEq, Repr, Inhabited

namespace Source

/-- No line at all. -/
def empty : Source := ⟨#[]⟩

/-- Cut a text into lines. -/
def ofText (text : String) : Source :=
  ⟨(Text.lines text).toArray⟩

/-- A line without the white space at its ends. -/
def text? (s : Source) (i : Nat) : Option String :=
  s.lines[i]?.map Text.trim

/-- The first line from the given one on that is not blank, trimmed. -/
def firstFrom? (s : Source) (i : Nat) : Option String :=
  if h : i < s.lines.size then
    let text := Text.trim s.lines[i]
    if text.isEmpty then firstFrom? s (i + 1) else some text
  else none
termination_by s.lines.size - i

/-- The first line after the given one that is not blank, trimmed. -/
def nextAfter? (s : Source) (i : Nat) : Option String :=
  s.firstFrom? (i + 1)

end Source

/-- A line that cannot be read, with the fault in it. -/
structure ReadError (α : Type) where
  /-- The index of the line. -/
  index : Nat
  /-- What is wrong. -/
  fault : Fault α
  deriving DecidableEq, Repr

namespace ReadError

/-- The number of the line as people count. -/
def lineNumber {α : Type} (e : ReadError α) : Nat :=
  e.index + 1

end ReadError

/-- A program as words. -/
structure Program (α : Type) where
  /-- The lines, in order. -/
  lines : Array (Line α)
  deriving DecidableEq, Repr

namespace Program

variable {α : Type}

/-- Read lines of text, the first of which has the given index. -/
def readFrom [Scalar α] (index : Nat) : List String → Except (ReadError α) (List (Line α))
  | [] => .ok []
  | text :: texts =>
    match Line.read text with
    | .error fault => .error ⟨index, fault⟩
    | .ok line => (readFrom (index + 1) texts).map (line :: ·)

/-- Read every line of a source. -/
def read [Scalar α] (s : Source) : Except (ReadError α) (Program α) :=
  (readFrom 0 s.lines.toList).map fun lines => ⟨lines.toArray⟩

/-- The lines that declare a label, each with the label. -/
def labels [Scalar α] (p : Program α) : List (Nat × Nat) :=
  p.lines.toList.zipIdx.filterMap fun (line, i) => line.label?.map (·, i)

/-- The index of the line that a label names. -/
def lineOf? [Scalar α] (p : Program α) (label : Nat) : Option Nat :=
  (p.labels.reverse.find? (·.1 = label)).map Prod.snd

/-- How many different labels are declared. -/
def labelCount [Scalar α] (p : Program α) : Nat :=
  (p.labels.map Prod.fst).eraseDups.length

end Program

end Lathe
