import Lathe.Trace.Point

/-!
# Arcs by radius

G2 and G3 give an arc by its end and a radius.  `Arc.solve?` finds the centre and the angles in
radial coordinates, in which diameters are halved.  Two centres fit the ends and the radius;
the one whose sweep in the given direction is shorter is taken.  `Arc.polyline` cuts the arc into
steps: it starts and ends exactly at the given places, and where there is no arc to solve it is
the straight move.

Two limits come in where the steps are very many.  Steps are counted with 64 bits, so that
`Arc.stepCount` stops at `Arc.countLimit`; and long before that there is no list that could hold
the places, which `Arc.polyline?` takes into account.
-/

namespace Lathe

/-- How arcs are cut into steps, and which of them are too small or too flat to solve. -/
structure ArcSettings (α : Type) where
  /-- The least number of steps. -/
  minPoints : UInt64
  /-- The largest angle of a step. -/
  maxAngleStep : α
  /-- Ends nearer than this give no arc. -/
  minChord : α
  /-- Radii below this give no arc. -/
  minRadius : α
  /-- How far the radius may stay below half the chord. -/
  radiusTolerance : α
  deriving DecidableEq, Repr

namespace ArcSettings

/-- The settings in force unless changed. -/
def standard {α : Type} [Scalar α] : ArcSettings α where
  minPoints := 24
  maxAngleStep := Scalar.pi / 32.0
  minChord := 1e-4
  minRadius := 1e-4
  radiusTolerance := 1e-3

end ArcSettings

/-- A solved arc, in radial coordinates. -/
structure Arc (α : Type) where
  /-- The radial coordinate of the centre. -/
  centreR : α
  /-- The axial coordinate of the centre. -/
  centreZ : α
  /-- The radius. -/
  radius : α
  /-- The angle of the first end about the centre, measured from the axis. -/
  startAngle : α
  /-- The angle from the first end to the last: not positive with the clock, not negative
  against it. -/
  sweep : α
  deriving DecidableEq, Repr

namespace Arc

variable {α : Type} [Scalar α]

/-- An angle difference brought to the sign of its direction by a full turn. -/
def directed (r : Rotation) (sweep : α) : α :=
  match r with
  | .clockwise => if 0.0 < sweep then sweep - 2.0 * Scalar.pi else sweep
  | .counterclockwise => if sweep < 0.0 then sweep + 2.0 * Scalar.pi else sweep

/-- The arc about a centre from one place to another, both in radial coordinates. -/
def about (rotation : Rotation) (radius centreR centreZ r₁ z₁ r₂ z₂ : α) : Arc α :=
  let first := Scalar.atan2 (r₁ - centreR) (z₁ - centreZ)
  let last := Scalar.atan2 (r₂ - centreR) (z₂ - centreZ)
  ⟨centreR, centreZ, radius, first, directed rotation (last - first)⟩

/-- The arc between two places with a radius, whose sign does not matter; none if the ends are
too near, the radius too small, or the ends too far apart for it. -/
def solve? (s : ArcSettings α) (a b : Position α) (signedRadius : α) (rotation : Rotation) :
    Option (Arc α) :=
  let r₁ := a.x / 2.0
  let r₂ := b.x / 2.0
  let dr := r₂ - r₁
  let dz := b.z - a.z
  let chord := Scalar.sqrt (dr * dr + dz * dz)
  let radius := Scalar.abs signedRadius
  if chord < s.minChord ∨ radius < s.minRadius ∨ radius < chord / 2.0 - s.radiusTolerance then
    none
  else
    let midR := (r₁ + r₂) / 2.0
    let midZ := (a.z + b.z) / 2.0
    -- both centres lie at the same height above the middle of the chord, one on each side
    let acrossR := -dz / chord
    let acrossZ := dr / chord
    let height :=
      Scalar.sqrt (Scalar.max (radius * radius - chord / 2.0 * (chord / 2.0)) 0.0)
    let one :=
      about rotation radius (midR + acrossR * height) (midZ + acrossZ * height) r₁ a.z r₂ b.z
    let other :=
      about rotation radius (midR - acrossR * height) (midZ - acrossZ * height) r₁ a.z r₂ b.z
    some (if Scalar.abs one.sweep ≤ Scalar.abs other.sweep then one else other)

/-- The place at an angle, with the diameter restored. -/
def pointAt (g : Arc α) (angle : α) : Position α :=
  ⟨(g.centreR + g.radius * Scalar.sin angle) * 2.0, g.centreZ + g.radius * Scalar.cos angle⟩

/-- The largest count of steps, `2 ^ 64 - 1`: counts have 64 bits. -/
def countLimit : Nat := 18446744073709551615

/-- The number of steps for a sweep: enough for none to turn by more than the largest angle, as far
as counts go; not fewer than the least number, and at least one. -/
def stepCount (s : ArcSettings α) (sweep : α) : Nat :=
  let byAngle := Nat.min countLimit (Scalar.ceil (Scalar.abs sweep / s.maxAngleStep))
  Nat.max (Nat.max byAngle s.minPoints.toNat) 1

/-- The angle after `i` of `n` equal steps. -/
def angleAfter (g : Arc α) (n i : Nat) : α :=
  g.startAngle + g.sweep * (Scalar.ofNat i / Scalar.ofNat n)

/-- The places strictly between the ends when the arc is cut into `n` steps. -/
def interior (g : Arc α) (n : Nat) : List (Position α) :=
  (List.range' 1 (n - 1)).map fun i => g.pointAt (g.angleAfter n i)

/-- The places along the arc, both ends included, however many they are. -/
def polyline (s : ArcSettings α) (a b : Position α) (radius : α) (rotation : Rotation) :
    List (Position α) :=
  match solve? s a b radius rotation with
  | none => [a, b]
  | some g => a :: (g.interior (stepCount s g.sweep) ++ [b])

/-- The most places that a list can hold: it takes no more than `2 ^ 63 - 1` bytes, and a place
takes sixteen of them. -/
def placeLimit : Nat := 9223372036854775807 / 16

/-- The list of the places along the arc.  Room is made for all of them beforehand; none if there
are more than a list can hold. -/
def polyline? (s : ArcSettings α) (a b : Position α) (radius : α) (rotation : Rotation) :
    Option (List (Position α)) :=
  match solve? s a b radius rotation with
  | none => some (polyline s a b radius rotation)
  | some g =>
    if stepCount s g.sweep + 1 ≤ placeLimit then some (polyline s a b radius rotation) else none

end Arc

end Lathe
