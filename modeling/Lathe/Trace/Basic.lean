import Lathe.Trace.Point

/-!
# Traces

A `Trace` is the list of points that playback runs along.  It is built once from a program and
never changed.  Its measures are the extent (`bounds?`), the travelled `length`, the number of
points of each kind, and the span of blocks from the first point to the last.
-/

namespace Lathe

/-- The points of a tool path, in order. -/
structure Trace (α : Type) where
  /-- The points. -/
  points : Array (Point α)
  deriving DecidableEq, Repr

/-- An upright box in the plane of the tool. -/
structure Bounds (α : Type) where
  /-- The smallest diameter. -/
  minX : α
  /-- The largest diameter. -/
  maxX : α
  /-- The least place along the axis. -/
  minZ : α
  /-- The greatest place along the axis. -/
  maxZ : α
  deriving DecidableEq, Repr

namespace Bounds

variable {α : Type} [Scalar α]

/-- The box of one place. -/
def ofPosition (p : Position α) : Bounds α := ⟨p.x, p.x, p.z, p.z⟩

/-- Grow the box to hold a place. -/
def including (b : Bounds α) (p : Position α) : Bounds α where
  minX := Scalar.min b.minX p.x
  maxX := Scalar.max b.maxX p.x
  minZ := Scalar.min b.minZ p.z
  maxZ := Scalar.max b.maxZ p.z

end Bounds

namespace Trace

variable {α : Type}

/-- A trace without points. -/
def empty : Trace α := ⟨#[]⟩

/-- A trace of the given points. -/
def ofList (points : List (Point α)) : Trace α := ⟨points.toArray⟩

/-- The number of points. -/
def size (t : Trace α) : Nat := t.points.size

/-- The point with the given index. -/
def get? (t : Trace α) (i : Nat) : Option (Point α) := t.points[i]?

/-- The last point. -/
def last? (t : Trace α) : Option (Point α) := t.points.back?

/-- Each point with the one after it. -/
def neighbours (t : Trace α) : List (Point α × Point α) :=
  let points := t.points.toList
  points.zip points.tail

/-- The least box around all points. -/
def bounds? [Scalar α] (t : Trace α) : Option (Bounds α) :=
  match t.points.toList with
  | [] => none
  | p :: ps =>
    some (ps.foldl (fun b q => b.including q.toPosition) (.ofPosition p.toPosition))

/-- The travelled length. -/
def length [Scalar α] (t : Trace α) : α :=
  t.neighbours.foldl (fun sum (a, b) => sum + a.distance b) 0.0

/-- Block numbers never go down along the trace. -/
def isMonotonic (t : Trace α) : Bool :=
  t.neighbours.all fun (a, b) => a.block ≤ b.block

/-- The number of points of a kind. -/
def count (t : Trace α) (k : Kind) : Nat :=
  t.points.toList.countP (·.kind = k)

/-- The kinds that occur, each with the number of its points. -/
def kindCounts (t : Trace α) : List (Kind × Nat) :=
  (Kind.all.map fun k => (k, t.count k)).filter (·.2 ≠ 0)

/-- The number of blocks from the block of the first point to that of the last. -/
def blockSpan (t : Trace α) : Nat :=
  match t.get? 0, t.last? with
  | some first, some last => last.block - first.block + 1
  | _, _ => 0

/-- The point is the last of its block, also if there is no such point. -/
def endsBlock (t : Trace α) (i : Nat) : Bool :=
  match t.get? i, t.get? (i + 1) with
  | some here, some next => here.block ≠ next.block
  | _, _ => true

end Trace

end Lathe
