/-!
# The tick timer

Playback never waits.  When it wants to go on it arms a *tick*: a handle with a number of its own
and the time at which it is due.  The host waits and hands the tick back.  Only the tick that was
armed last is live; arming another one, cancelling, and accepting it all make it stale.

Times are milliseconds.
-/

namespace Lathe

/-- A tick that playback waits for. -/
structure Tick where
  /-- Its number. -/
  id : Nat
  /-- When it is due. -/
  due : Nat
  deriving DecidableEq, Repr

/-- Gives out ticks and knows which one is live. -/
structure Timer where
  /-- The time from arming to being due. -/
  interval : Nat
  /-- The number of the next tick. -/
  nextId : Nat
  /-- The live tick. -/
  armed : Option Tick
  deriving DecidableEq, Repr

namespace Timer

/-- A timer that has given out nothing yet. -/
def new (interval : Nat) : Timer := ⟨interval, 1, none⟩

variable (t : Timer)

/-- The tick that arming gives out. -/
def nextTick (now : Nat) : Tick := ⟨t.nextId, now + t.interval⟩

/-- Arm a tick in place of any other. -/
def arm (now : Nat) : Timer :=
  { t with nextId := t.nextId + 1, armed := some (t.nextTick now) }

/-- Let no tick be live. -/
def cancel : Timer := { t with armed := none }

/-- The tick is the live one. -/
def isLive (k : Tick) : Bool :=
  match t.armed with
  | some armed => armed.id = k.id
  | none => false

/-- Use up a tick if it is the live one; a stale one changes nothing. -/
def accept (k : Tick) : Timer × Bool :=
  if t.isLive k then (t.cancel, true) else (t, false)

end Timer

end Lathe
