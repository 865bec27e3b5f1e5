import Lathe.Motion.Walk

/-!
# Checking the tuning of the interpreter

The limit on steps, the largest angle of a step and the standard depth of cut have to be finite
and above zero, arcs need a least number of steps, and the other standard values of cycles must
not be negative.  Tolerances are free.
-/

namespace Lathe

/-- What is wrong with a tuning. -/
inductive TuningFault (α : Type) where
  /-- The limit on steps is not finite and above zero. -/
  | maxStep (value : α)
  /-- Arcs may have no steps. -/
  | minPoints
  /-- The largest angle of a step is not finite and above zero. -/
  | maxAngleStep
  /-- The standard depth of cut is not finite and above zero. -/
  | depth
  /-- The standard retraction or feed is negative. -/
  | negativeCycle
  deriving DecidableEq, Repr

namespace Tuning

variable {α : Type} [Scalar α]

/-- The tuning in force unless changed. -/
def standard : Tuning α where
  maxStep := 0.4
  arc := .standard
  cycle := .standard

/-- The first fault of a tuning, if it has one. -/
def fault? (t : Tuning α) : Option (TuningFault α) :=
  if !Scalar.isPositive t.maxStep then some (.maxStep t.maxStep)
  else if t.arc.minPoints = 0 then some .minPoints
  else if !Scalar.isPositive t.arc.maxAngleStep then some .maxAngleStep
  else if !Scalar.isPositive t.cycle.depth then some .depth
  else if t.cycle.retract < 0.0 ∨ t.cycle.roughFeed < 0.0 then some .negativeCycle
  else none

end Tuning

end Lathe
