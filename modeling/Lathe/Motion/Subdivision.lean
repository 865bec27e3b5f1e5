import Lathe.Motion.Walk
import Lathe.Trace.Basic

/-!
# Subdivision and interpretation

Playback advances by distance, so long moves are cut into equal parts no longer than a limit.
Inserted points are stamped like the point that the move leads to.  A limit that is not positive
leaves a path as it is.  There are as many parts as it takes; where they are too many to be counted
they are too many for a list as well.

`Program.trace` is the interpretation of a program: its walk, subdivided.
-/

namespace Lathe

namespace Subdivision

variable {α : Type} [Scalar α]

/-- The point a given part of the way from one point to another, stamped like the latter. -/
def between (a b : Point α) (t : α) : Point α :=
  { b with x := a.x + (b.x - a.x) * t, z := a.z + (b.z - a.z) * t }

/-- The points that cut a move into parts no longer than the limit. -/
def inserted (limit : α) (a b : Point α) : List (Point α) :=
  let distance := a.distance b
  if limit < distance then
    let n := Scalar.ceil (distance / limit)
    (List.range' 1 (n - 1)).map fun k => between a b (Scalar.ofNat k / Scalar.ofNat n)
  else []

/-- A path with all long moves cut. -/
def subdivide (limit : α) (path : List (Point α)) : List (Point α) :=
  match path with
  | [] => []
  | first :: rest =>
    if Scalar.isPositive limit then
      first :: ((first :: rest).zip rest).flatMap fun (a, b) => inserted limit a b ++ [b]
    else first :: rest

end Subdivision

namespace Program

variable {α : Type} [Scalar α]

/-- The trace that a program stands for. -/
def trace (t : Tuning α) (p : Program α) : Trace α :=
  .ofList (Subdivision.subdivide t.maxStep (Walk.points t p))

end Program

namespace Source

variable {α : Type} [Scalar α]

/-- Read a source and interpret it. -/
def trace (t : Tuning α) (s : Source) : Except (ReadError α) (Trace α) :=
  (Program.read s).map (·.trace t)

end Source

end Lathe
