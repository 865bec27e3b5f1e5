import Lathe.Playback.Player

/-!
# The host of a player

The host keeps the time and every tick that the player has given it, oldest first, also those
that are stale by now.  It may hand back any of them at any time.  `Host.perform` carries out one
`Command` and gives the reply.

`run` plays and then fires each tick on time until none comes back or enough ticks have been
counted; `runHalts` repeats this over the halts on the way.
-/

namespace Lathe

/-- A player with the time and the ticks given out. -/
structure Host (α : Type) where
  /-- The player. -/
  player : Player α
  /-- The time. -/
  now : Nat
  /-- All ticks received, oldest first. -/
  ticks : Array Tick
  deriving DecidableEq, Repr

/-- What one run between halts came to. -/
structure RunRecord where
  /-- The ticks counted. -/
  ticks : Nat
  /-- The cursor afterwards. -/
  index : Nat
  /-- The last block reached. -/
  lastBlock : Nat
  /-- Why the last tick ended, if there was one. -/
  halt : Option Halt
  deriving DecidableEq, Repr

/-- What a host can be told to do. -/
inductive Command (α : Type) where
  /-- Start or resume. -/
  | play
  /-- Hand back a tick by its place among those received, or the newest. -/
  | fire (which : Option Nat)
  /-- Pause. -/
  | pause
  /-- Go back to the first point. -/
  | reset
  /-- Switch single-block mode. -/
  | singleBlock (on : Bool)
  /-- Switch optional stops. -/
  | optionalStop (on : Bool)
  /-- Change the speed. -/
  | speed (speed : α)
  /-- Let time pass. -/
  | advance (ms : Nat)
  /-- Play until no tick comes back, counting at most so many ticks. -/
  | run (limit : Nat)
  /-- Play over so many halts. -/
  | runHalts (count : Nat)
  deriving DecidableEq, Repr

/-- What a command answers. -/
inductive Reply (α : Type) where
  /-- Nothing to tell. -/
  | done
  /-- A tick to wait for, if there is one. -/
  | tick (tick : Option Tick)
  /-- There is no such tick to hand back. -/
  | noSuchTick
  /-- A number: the time, or the ticks counted. -/
  | number (n : Nat)
  /-- The runs between halts. -/
  | runs (records : List RunRecord)
  /-- A speed was refused. -/
  | refused (error : SpeedError α)
  deriving DecidableEq, Repr

namespace Host

variable {α : Type}

/-- A host at time zero that has received nothing. -/
def new (p : Player α) : Host α := ⟨p, 0, #[]⟩

/-- Take over the player after an operation, and the tick it gave, if any. -/
def receive (h : Host α) (r : Player α × Option Tick) : Host α :=
  { h with player := r.1, ticks := h.ticks ++ r.2.toArray }

/-- A tick received before: the one with the given place, or the newest. -/
def tick? (h : Host α) (which : Option Nat) : Option Tick :=
  match which with
  | some k => h.ticks[k]?
  | none => h.ticks.back?

variable [Scalar α]

/-- Fire a tick on time, then those that come back, counting at most `limit` of them.  Gives the
number fired. -/
def drain (h : Host α) (next : Option Tick) : Nat → Host α × Nat
  | 0 => (h, 0)
  | limit + 1 =>
    match next with
    | none => (h, 0)
    | some k =>
      let r := h.player.fire k k.due
      let (h', fired) := ({ h with now := k.due }.receive r).drain r.2 limit
      (h', fired + 1)

/-- Play, which counts as a tick even if it is ignored, then fire ticks as they come, counting at
most `limit` in all (the first counts in any case). -/
def run (h : Host α) (limit : Nat) : Host α × Nat :=
  let r := h.player.play h.now
  let (h', fired) := (h.receive r).drain r.2 (limit - 1)
  (h', fired + 1)

/-- The most ticks that a run between halts counts. -/
def runLimit : Nat := 20000

/-- Run so many times, stopping after a run that does not end in a pause. -/
def runHalts (h : Host α) : Nat → Host α × List RunRecord
  | 0 => (h, [])
  | n + 1 =>
    let (h', ticks) := h.run runLimit
    let p := h'.player
    let record : RunRecord := ⟨ticks, p.index, p.lastBlock, p.lastTick.map Report.halt⟩
    if p.phase = .paused then
      let (h'', records) := h'.runHalts n
      (h'', record :: records)
    else (h', [record])

/-- Carry out a command. -/
def perform (h : Host α) : Command α → Host α × Reply α
  | .play =>
    let r := h.player.play h.now
    (h.receive r, .tick r.2)
  | .fire which =>
    match h.tick? which with
    | none => (h, .noSuchTick)
    | some k =>
      let r := h.player.fire k h.now
      (h.receive r, .tick r.2)
  | .pause => ({ h with player := h.player.pause }, .done)
  | .reset => ({ h with player := h.player.reset }, .done)
  | .singleBlock on => ({ h with player := h.player.setSingleBlock on }, .done)
  | .optionalStop on => ({ h with player := h.player.setOptionalStop on }, .done)
  | .speed speed =>
    match h.player.setSpeed speed with
    | .ok p => ({ h with player := p }, .done)
    | .error e => (h, .refused e)
  | .advance ms => ({ h with now := h.now + ms }, .number (h.now + ms))
  | .run limit =>
    let (h', n) := h.run limit
    (h', .number n)
  | .runHalts count =>
    let (h', records) := h.runHalts count
    (h', .runs records)

end Host

end Lathe
