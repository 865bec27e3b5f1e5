import Lathe.Playback.Timer
import Lathe.Trace.Basic

/-!
# Playback of a trace

A `Player` moves a cursor along a trace.  One tick covers a distance budget: the base step times
the speed.  It moves point by point and ends early where playback has to halt: at the last point,
at a stop on the last point of its block, and at the end of every block in single-block mode
(`Player.haltAt?`).  Steps shorter than `minStep` are counted as `minStep`, so points on one
place use up budget too.

`play` runs a tick at once and arms the next one; `fire` runs a tick that was armed, provided that
it is still live.  A halt disarms: stops and block ends pause, the end finishes.
-/

namespace Lathe

/-- Why a tick ended. -/
inductive Halt where
  /-- The budget is used up; playback goes on with the next tick. -/
  | budget
  /-- A program stop. -/
  | programStop
  /-- An optional stop, with optional stops on. -/
  | optionalStop
  /-- The end of the program. -/
  | programEnd
  /-- The end of a block in single-block mode. -/
  | singleBlock
  /-- The last point of the trace. -/
  | endOfTrace
  deriving DecidableEq, Repr

namespace Halt

/-- The written name. -/
def name : Halt → String
  | budget => "budget"
  | programStop => "program-stop"
  | optionalStop => "optional-stop"
  | programEnd => "program-end"
  | singleBlock => "single-block"
  | endOfTrace => "end-of-trace"

end Halt

/-- What playback is doing. -/
inductive Phase where
  /-- Ready at the first point. -/
  | idle
  /-- Running. -/
  | playing
  /-- Halted on the way. -/
  | paused
  /-- At the end. -/
  | finished
  deriving DecidableEq, Repr

namespace Phase

/-- The written name. -/
def name : Phase → String
  | idle => "Idle"
  | playing => "Playing"
  | paused => "Paused"
  | finished => "Finished"

end Phase

/-- What the operator is told about playback. -/
inductive Mode where
  /-- Ready to play. -/
  | loaded
  /-- Playback is running. -/
  | running
  /-- Playback is halted on the way. -/
  | paused
  /-- Single-block mode has halted playback. -/
  | singleBlockPaused
  /-- Playback is at the end. -/
  | finished
  deriving DecidableEq, Repr

namespace Mode

/-- What the operator reads. -/
def label : Mode → String
  | loaded => "loaded"
  | running => "running"
  | paused => "paused"
  | singleBlockPaused => "single-block-paused"
  | finished => "finished"

end Mode

/-- The phase after a tick that ended for a reason, with what the operator is told; none if
playback goes on. -/
def Halt.rest? : Halt → Option (Phase × Mode)
  | .budget => none
  | .programStop | .optionalStop => some (.paused, .paused)
  | .singleBlock => some (.paused, .singleBlockPaused)
  | .programEnd | .endOfTrace => some (.finished, .finished)

/-- What one tick did. -/
structure Report (α : Type) where
  /-- The points moved on. -/
  steps : Nat
  /-- The distance counted. -/
  distance : α
  /-- Why it ended. -/
  halt : Halt
  deriving DecidableEq, Repr

/-- A speed that is not above zero and finite. -/
inductive SpeedError (α : Type) where
  /-- The refused speed. -/
  | invalid (speed : α)
  deriving DecidableEq, Repr

/-- Playback of one trace. -/
structure Player (α : Type) where
  /-- The trace being played. -/
  trace : Trace α
  /-- The cursor. -/
  index : Nat
  /-- What playback is doing. -/
  phase : Phase
  /-- What the operator is told. -/
  mode : Mode
  /-- The factor on the base step. -/
  speed : α
  /-- Halt at the end of every block. -/
  singleBlock : Bool
  /-- Halt at optional stops. -/
  optionalStop : Bool
  /-- The block of the last point reached. -/
  lastBlock : Nat
  /-- The distance of a tick at speed one. -/
  baseStep : α
  /-- Arms the ticks. -/
  timer : Timer
  /-- What the last tick did, if there was one since loading or rewinding. -/
  lastTick : Option (Report α)
  deriving DecidableEq, Repr

namespace Player

variable {α : Type}

/-- A player without a trace. -/
def new (baseStep : α) (interval : Nat) (speed : α) (singleBlock optionalStop : Bool) :
    Player α where
  trace := .empty
  index := 0
  phase := .idle
  mode := .loaded
  speed := speed
  singleBlock := singleBlock
  optionalStop := optionalStop
  lastBlock := 0
  baseStep := baseStep
  timer := .new interval
  lastTick := none

variable (p : Player α)

/-- The point under the cursor. -/
def current? : Option (Point α) := p.trace.get? p.index

/-- Playback is running. -/
def isPlaying : Bool := p.phase = .playing

/-! ### Controls that do not move forward -/

/-- Pause and disarm. -/
def pause : Player α :=
  let disarmed := { p with timer := p.timer.cancel }
  if p.phase = .playing then { disarmed with phase := .paused, mode := .paused } else disarmed

/-- Disarm and go back to the first point. -/
def reset : Player α :=
  { p with
    timer := p.timer.cancel
    index := 0
    phase := .idle
    mode := .loaded
    lastBlock := ((p.trace.get? 0).map Point.block).getD 0
    lastTick := none }

/-- Play another trace from its first point. -/
def load (t : Trace α) : Player α :=
  ({ p with trace := t }).reset

/-- Switch single-block mode. -/
def setSingleBlock (on : Bool) : Player α := { p with singleBlock := on }

/-- Switch optional stops. -/
def setOptionalStop (on : Bool) : Player α := { p with optionalStop := on }

variable [Scalar α]

/-- Change the speed; one that is not above zero and finite is refused. -/
def setSpeed (speed : α) : Except (SpeedError α) (Player α) :=
  if Scalar.isPositive speed then .ok { p with speed := speed } else .error (.invalid speed)

/-! ### Halts -/

/-- Why playback halts at the end of a block on a point with the given stop. -/
def blockHalt? (stop : Option Stop) : Option Halt :=
  match stop with
  | some .program => some .programStop
  | some .finish => some .programEnd
  | some .optional =>
    if p.optionalStop then some .optionalStop
    else if p.singleBlock then some .singleBlock else none
  | none => if p.singleBlock then some .singleBlock else none

/-- Why playback halts on reaching a point, if it does. -/
def haltAt? (i : Nat) : Option Halt :=
  if p.trace.size ≤ i + 1 then some .endOfTrace
  else if p.trace.endsBlock i then p.blockHalt? ((p.trace.get? i).bind Point.stop?)
  else none

/-- The point is a stop that playback steps off when it resumes. -/
def isParked (i : Nat) : Bool :=
  p.trace.endsBlock i &&
    match (p.trace.get? i).bind Point.stop? with
    | some .program => true
    | some .optional => p.optionalStop
    | some .finish | none => false

/-! ### Ticks -/

/-- The least distance that a step counts. -/
def minStep : α := 0.001

/-- The distance that the step from a point to the next one counts. -/
def stepLength (i : Nat) : α :=
  match p.trace.get? i, p.trace.get? (i + 1) with
  | some a, some b => Scalar.max (a.distance b) minStep
  | _, _ => minStep

/-- Move on from point `i` until the budget is used up or playback halts; `steps` and `distance`
are what this tick has covered so far.  Gives the index reached. -/
def advance (budget : α) (i steps : Nat) (distance : α) : Nat × Report α :=
  if distance < budget ∧ i + 1 < p.trace.size then
    let distance := distance + p.stepLength i
    match p.haltAt? (i + 1) with
    | some halt => (i + 1, ⟨steps + 1, distance, halt⟩)
    | none => advance budget (i + 1) (steps + 1) distance
  else (i, ⟨steps, distance, .budget⟩)
termination_by p.trace.size - i
decreasing_by omega

/-- The distance of one tick. -/
def budget : α := p.baseStep * p.speed

/-- How far a tick goes and why it ends. -/
def advanced : Nat × Report α :=
  if p.index + 1 < p.trace.size then p.advance p.budget p.index 0 0.0
  else (p.index, ⟨0, 0.0, .endOfTrace⟩)

/-- The player after a tick that went to point `i`: it takes the report down and comes to rest if
the halt asks for it. -/
def arrive (i : Nat) (report : Report α) : Player α :=
  let moved := { p with
    index := i
    lastBlock := if i = p.index then p.lastBlock else ((p.trace.get? i).map Point.block).getD 0
    lastTick := some report }
  match report.halt.rest? with
  -- the timer is left alone: whoever asked for the tick arms the next one
  | none => moved
  | some (phase, mode) => { moved with timer := moved.timer.cancel, phase := phase, mode := mode }

/-- Run one tick. -/
def tick : Player α :=
  let r := p.advanced
  p.arrive r.1 r.2

/-- Arm the next tick if playback is running. -/
def armIfPlaying (now : Nat) : Player α × Option Tick :=
  if p.phase = .playing then
    ({ p with timer := p.timer.arm now }, some (p.timer.nextTick now))
  else (p, none)

/-! ### Playing -/

/-- The cursor from which playback starts: the first point after the end, else where it is. -/
def origin : Nat :=
  if p.phase = .finished ∨ p.trace.size ≤ p.index + 1 then 0 else p.index

/-- The cursor from which the first tick runs. -/
def departure : Nat :=
  -- the stop that playback is parked on has been obeyed already
  if p.isParked p.origin then p.origin + 1 else p.origin

/-- Running, before the first tick. -/
def started : Player α :=
  { p with index := p.departure, phase := .playing, mode := .running }

/-- Start or resume.  The first tick runs at once, after a step off the stop that playback is
parked on; while running this only gives the armed tick again, and a trace of fewer than two
points is not played. -/
def play (now : Nat) : Player α × Option Tick :=
  if p.phase = .playing then (p, p.timer.armed)
  else if p.trace.size < 2 then (p, none)
  else p.started.tick.armIfPlaying now

/-- Run a tick that was armed.  A stale one is ignored. -/
def fire (k : Tick) (now : Nat) : Player α × Option Tick :=
  if p.timer.isLive k then
    let used := { p with timer := p.timer.cancel }
    if p.phase = .playing then used.tick.armIfPlaying now else (used, none)
  else (p, none)

end Player

end Lathe
