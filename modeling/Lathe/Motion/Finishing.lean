import Lathe.Motion.Roughing

/-!
# Finishing cycles

G70 follows the contour once: a rapid to its first point, cuts along the others at the feed in
force, and a rapid back to where the tool was.  Each program line of the contour has a block of
its own.  The return does not carry the M code of the cycle's line.
-/

namespace Lathe

/-- A finishing cycle. -/
structure Finishing (α : Type) where
  /-- Where the tool is before the cycle and after it. -/
  start : Position α
  /-- The feed of cuts. -/
  feed : α
  deriving DecidableEq, Repr

namespace Finishing

variable {α : Type} [Scalar α] (c : Finishing α)

/-- The kind of a cut along the contour: arcs stay arcs. -/
def cutKind (k : Kind) : Kind :=
  if k.isArc then k else .finishFeed

/-- The cuts along the contour, and the last block in use; `line` is the program line and
`block` the block of the point before. -/
def cuts (stamp : CycleLine) (line block : Nat) :
    List (ContourPoint α) → List (Point α) × Nat
  | [] => ([], block)
  | p :: rest =>
    let block := if p.line = line then block else block + 1
    let (points, last) := cuts stamp p.line block rest
    (.make p.toPosition (cutKind p.kind) block c.feed (some stamp.line) stamp.aux :: points, last)

/-- All points of the cycle, in blocks that are numbered without a limit; an empty contour gives
none. -/
def expand (contour : List (ContourPoint α)) (stamp : CycleLine) : Expansion α :=
  match contour with
  | [] => ⟨[], stamp.block⟩
  | first :: rest =>
    let approach : Point α :=
      .make first.toPosition .rapid (stamp.block + 1) 0.0 (some stamp.line) stamp.aux
    let (points, last) := c.cuts stamp first.line (stamp.block + 1) rest
    let home : Point α := .make c.start .rapid (last + 1) 0.0 (some stamp.line) none
    ⟨approach :: points ++ [home], last + 1⟩

/-- All points of the cycle, in counted blocks; none if the counter does not come to the last
one. -/
def expand? (contour : List (ContourPoint α)) (stamp : CycleLine) : Option (Expansion α) :=
  (c.expand contour stamp).counted? stamp

end Finishing

end Lathe
