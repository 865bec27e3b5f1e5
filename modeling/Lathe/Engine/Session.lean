import Lathe.Engine.Basic

/-!
# Sessions

A `Session` is an engine with its host: what is told to the host of a player can be told to it
too, while programs are loaded in between.
-/

namespace Lathe

/-- An engine with the time and the ticks given out. -/
structure Session (α : Type) where
  /-- The engine. -/
  engine : Engine α
  /-- The time. -/
  now : Nat
  /-- All ticks received, oldest first. -/
  ticks : Array Tick
  deriving DecidableEq, Repr

namespace Session

variable {α : Type}

/-- A session at time zero. -/
def new (e : Engine α) : Session α := ⟨e, 0, #[]⟩

/-- The host of the engine's player. -/
def host (s : Session α) : Host α := ⟨s.engine.player, s.now, s.ticks⟩

/-- Take over what has become of the host. -/
def withHost (s : Session α) (h : Host α) : Session α :=
  ⟨{ s.engine with player := h.player }, h.now, h.ticks⟩

/-- Carry out a command. -/
def perform [Scalar α] (s : Session α) (c : Command α) : Session α × Reply α :=
  let (h, reply) := s.host.perform c
  (s.withHost h, reply)

end Session

end Lathe
