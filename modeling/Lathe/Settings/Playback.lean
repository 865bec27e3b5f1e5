import Lathe.Playback.Player

/-!
# Settings of playback

A slider with positions from one to `rawMax` sets the speed.  Its curve is exponential: the
speed at a position is `base` to the power of the position's share of the way, divided by
`normalization`.  Positions outside the range count as its ends, and a range of fewer than two
positions counts as two.
-/

namespace Lathe

/-- The curve from slider positions to speeds. -/
structure SpeedCurve (α : Type) where
  /-- The ratio of the speeds at the two ends. -/
  base : α
  /-- The last position. -/
  rawMax : UInt32
  /-- What speeds are divided by. -/
  normalization : α
  /-- The position at the start. -/
  defaultRaw : UInt32
  deriving DecidableEq, Repr

/-- What is wrong with a curve. -/
inductive CurveFault where
  /-- The ratio is not finite or below one. -/
  | base
  /-- There are fewer than two positions. -/
  | rawMax
  /-- The divisor is not finite and above zero. -/
  | normalization
  /-- The position at the start is outside the range, which ends at the given one. -/
  | defaultRaw (rawMax : UInt32)
  deriving DecidableEq, Repr

namespace SpeedCurve

variable {α : Type} [Scalar α]

/-- The curve in force unless changed. -/
def standard : SpeedCurve α where
  base := 5000.0
  rawMax := 100
  normalization := 100.0
  defaultRaw := 30

variable (c : SpeedCurve α)

/-- The speed at a position. -/
def speedAt (raw : Nat) : α :=
  let last := Nat.max c.rawMax.toNat 2
  let raw := Nat.min (Nat.max raw 1) last
  Scalar.pow c.base (Scalar.ofNat (raw - 1) / Scalar.ofNat (last - 1)) / c.normalization

/-- The speed at the start. -/
def defaultSpeed : α := c.speedAt c.defaultRaw.toNat

/-- The first fault of a curve, if it has one. -/
def fault? : Option CurveFault :=
  if !(Scalar.isFinite c.base && decide (1.0 ≤ c.base)) then some .base
  else if c.rawMax < 2 then some .rawMax
  else if !Scalar.isPositive c.normalization then some .normalization
  else if c.defaultRaw = 0 ∨ c.rawMax < c.defaultRaw then some (.defaultRaw c.rawMax)
  else none

end SpeedCurve

/-- How playback starts out. -/
structure PlaybackSettings (α : Type) where
  /-- The distance of a tick at speed one. -/
  baseStep : α
  /-- The time between ticks, in milliseconds. -/
  tickInterval : UInt64
  /-- Halt at the end of every block. -/
  singleBlock : Bool
  /-- Halt at optional stops. -/
  optionalStop : Bool
  /-- The curve of the speed slider. -/
  curve : SpeedCurve α
  deriving DecidableEq, Repr

/-- What is wrong with settings of playback. -/
inductive PlaybackFault where
  /-- The base step is not finite and above zero. -/
  | baseStep
  /-- No time passes between ticks. -/
  | tickInterval
  /-- The curve has a fault. -/
  | curve (fault : CurveFault)
  deriving DecidableEq, Repr

namespace PlaybackSettings

variable {α : Type} [Scalar α]

/-- The settings in force unless changed. -/
def standard : PlaybackSettings α where
  baseStep := 0.4
  tickInterval := 16
  singleBlock := false
  optionalStop := false
  curve := .standard

variable (s : PlaybackSettings α)

/-- The first fault of the settings, if they have one. -/
def fault? : Option PlaybackFault :=
  if !Scalar.isPositive s.baseStep then some .baseStep
  else if s.tickInterval = 0 then some .tickInterval
  else s.curve.fault?.map .curve

/-- A player with these settings. -/
def player : Player α :=
  .new s.baseStep s.tickInterval.toNat s.curve.defaultSpeed s.singleBlock s.optionalStop

end PlaybackSettings

end Lathe
