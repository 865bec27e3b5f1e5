import Lathe.Decimal.Notation
import Lathe.Playback.Player
import Lathe.Program.Basic

/-!
# The status line

What the operator sees of the point under the cursor: where the tool is, its feed and block, the
program line that the point comes from, and the next line with anything on it.
-/

namespace Lathe

/-- What the operator sees. -/
structure Status (α : Type) where
  /-- Where the tool is. -/
  position : Position α
  /-- The feed on the way to it. -/
  feed : α
  /-- The block. -/
  block : Nat
  /-- The program line, trimmed. -/
  current : Option String
  /-- The next line that is not blank, trimmed. -/
  next : Option String
  /-- What the operator is told about playback. -/
  mode : Mode
  deriving DecidableEq, Repr

namespace Status

/-- The status at a point of a program. -/
def ofPoint {α : Type} (p : Point α) (s : Source) (mode : Mode) : Status α where
  position := p.toPosition
  feed := p.feed
  block := p.block
  current := p.line.bind s.text?
  next := p.line.bind s.nextAfter?
  mode := mode

/-- The status on one line, numbers with three places. -/
def line (s : Status Float) : String :=
  "X" ++ Decimal.places 3 s.position.x ++ " Z" ++ Decimal.places 3 s.position.z ++
    " F" ++ Decimal.places 3 s.feed ++ " [" ++ s.mode.label ++ "]" ++
    (match s.current with
      | some text => " " ++ text
      | none => "") ++
    (match s.next with
      | some text => " -> " ++ text
      | none => "")

end Status

end Lathe
