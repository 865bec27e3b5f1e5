import Lathe.Engine.Session

/-!
# Playing to the end

`Session.playThrough` plays a loaded program to its end.  Each time playback halts it takes down
the status with the reason; stops and block ends are resumed at once.  A trace too short to play
is left where it is.

A run never counts more ticks than the trace has points, and a run that ends in a pause has moved
the cursor on; the latter is checked on the way, so that the recursion ends whatever the budget
of a tick is.
-/

namespace Lathe

/-- What playing to the end came to. -/
structure RunSummary (α : Type) where
  /-- The ticks counted. -/
  ticks : Nat
  /-- The halts on the way that were resumed. -/
  halts : Nat
  /-- The end was reached. -/
  finished : Bool
  /-- Why the last tick ended. -/
  lastHalt : Option Halt
  /-- The status at each halt, with the reason. -/
  stations : List (Status α × Option Halt)
  deriving DecidableEq, Repr

namespace Player

/-- The number of points from the cursor on. -/
def remaining {α : Type} (p : Player α) : Nat :=
  p.trace.size - p.index

end Player

namespace Session

variable {α : Type} [Scalar α]

/-- Play until no tick comes back; gives the ticks counted. -/
def playOn (s : Session α) : Session α × Nat :=
  let (h, ticks) := s.host.run s.engine.player.trace.size
  (s.withHost h, ticks)

/-- Why the last tick ended. -/
def lastHalt? (s : Session α) : Option Halt :=
  s.engine.player.lastTick.map Report.halt

/-- The status with the reason of the halt; none without a trace. -/
def station? (s : Session α) : Option (Status α × Option Halt) :=
  s.engine.status?.map (·, s.lastHalt?)

/-- Play to the end. -/
def playThrough (s : Session α) : Session α × RunSummary α :=
  let (s', ticks) := s.playOn
  let here : RunSummary α :=
    ⟨ticks, 0, s'.engine.player.phase = .finished, s'.lastHalt?, s'.station?.toList⟩
  if s'.engine.player.phase = .paused ∧ s'.engine.player.remaining < s.engine.player.remaining then
    let (last, rest) := s'.playThrough
    (last,
      { rest with
        ticks := ticks + rest.ticks
        halts := rest.halts + 1
        stations := here.stations ++ rest.stations })
  else (s', here)
termination_by s.engine.player.remaining

end Session

namespace RunSummary

/-- A line for each halt. -/
def lines (r : RunSummary Float) : List String :=
  r.stations.map fun (status, halt) =>
    match halt with
    | some halt => status.line ++ " <" ++ halt.name ++ ">"
    | none => status.line

end RunSummary

end Lathe
