import Lathe.Proofs.Playback.Tick
import Lathe.Scalar.Binary64

/-!
# Operations of a player

A host drives a player by a sequence of `Operation`s in any order, and it may hand back any tick
at any time.  `Player.Reachable` are the players that come out of this.

Only `play` and `fire` run a tick, and each at most one: `Player.ticking?` is the player whose tick
an operation runs, and `Player.perform_of_ticking?_eq_some` says that nothing else happens then but
arming the next tick.
-/

namespace Lathe

/-- What a host can ask of a player. -/
inductive Operation (α : Type) where
  /-- Play another trace. -/
  | load (trace : Trace α)
  /-- Start or resume. -/
  | play (now : Nat)
  /-- Hand back a tick, live or not. -/
  | fire (tick : Tick) (now : Nat)
  /-- Pause. -/
  | pause
  /-- Go back to the first point. -/
  | reset
  /-- Change the speed. -/
  | setSpeed (speed : α)
  /-- Switch single-block mode. -/
  | setSingleBlock (on : Bool)
  /-- Switch optional stops. -/
  | setOptionalStop (on : Bool)
  deriving DecidableEq, Repr

namespace Operation

variable {α : Type}

/-- The operation leaves the trace and the flags as they are, and does not rewind. -/
def keepsCourse : Operation α → Bool
  | play _ | fire _ _ | pause | setSpeed _ => true
  | load _ | reset | setSingleBlock _ | setOptionalStop _ => false

/-- The operation starts or resumes playback. -/
def isPlay : Operation α → Bool
  | play _ => true
  | _ => false

end Operation

namespace Player

variable {α : Type} {p q : Player α} {op : Operation α}

/-! ### Where playback goes on -/

/-- The point from which the next tick runs. -/
def tickStart (p : Player α) : Nat := if p.phase = .playing then p.index else p.departure

theorem origin_lt (hs : 2 ≤ p.trace.size) : p.origin + 1 < p.trace.size := by
  unfold origin
  split_ifs with h
  · omega
  · have := mt Or.inr h; omega

theorem departure_lt (hs : 2 ≤ p.trace.size) : p.departure < p.trace.size := by
  have := origin_lt hs
  unfold departure
  split_ifs <;> omega

/-- A player halted on the way resumes where it is. -/
theorem origin_eq_index (hf : p.phase ≠ .finished) (hi : p.index + 1 < p.trace.size) :
    p.origin = p.index := by
  rw [origin, if_neg]
  rintro (h | h)
  · exact hf h
  · omega

theorem departure_of_not_isParked (h : p.isParked p.origin = false) : p.departure = p.origin := by
  simp [departure, h]

theorem tickStart_of_playing (h : p.phase = .playing) : p.tickStart = p.index := if_pos h

theorem tickStart_of_ne (h : p.phase ≠ .playing) : p.tickStart = p.departure := if_neg h

@[simp] theorem pause_index : p.pause.index = p.index := by
  unfold pause; split_ifs <;> rfl

theorem pause_sameCourse : SameCourse p.pause p := by
  unfold pause; split_ifs <;> exact ⟨rfl, rfl, rfl⟩

theorem armIfPlaying_of_playing (h : p.phase = .playing) (now : Nat) :
    p.armIfPlaying now = ({ p with timer := p.timer.arm now }, some (p.timer.nextTick now)) := by
  rw [armIfPlaying, if_pos h]

theorem armIfPlaying_of_ne (h : p.phase ≠ .playing) (now : Nat) :
    p.armIfPlaying now = (p, none) := by
  rw [armIfPlaying, if_neg h]

/-- Arming the next tick leaves all but the timer as the tick has left it. -/
theorem armIfPlaying_fst (now : Nat) :
    (p.armIfPlaying now).1 = { p with timer := (p.armIfPlaying now).1.timer } := by
  unfold armIfPlaying
  split_ifs <;> rfl

/-! ### The tick of an operation -/

/-- The player whose tick an operation runs, if it runs one. -/
def ticking? (p : Player α) : Operation α → Option (Player α)
  | .play _ => if p.phase = .playing ∨ p.trace.size < 2 then none else some p.started
  | .fire k _ =>
    if p.timer.isLive k ∧ p.phase = .playing then some { p with timer := p.timer.cancel } else none
  | _ => none

theorem ticking?_play (hp : p.phase ≠ .playing) (hs : 2 ≤ p.trace.size) (now : Nat) :
    p.ticking? (.play now) = some p.started := by
  rw [ticking?, if_neg]
  rintro (h | h)
  · exact hp h
  · omega

theorem not_playing_of_ticking?_play {now : Nat} (h : p.ticking? (.play now) = some q) :
    p.phase ≠ .playing := by
  intro hp
  rw [ticking?, if_pos (.inl hp)] at h
  cases h

theorem playing_of_ticking?_fire {k : Tick} {now : Nat} (h : p.ticking? (.fire k now) = some q) :
    p.phase = .playing := by
  simp only [ticking?] at h
  split_ifs at h with hk
  exact hk.2

/-! ### Operations and what they lead to -/

variable [Scalar α]

/-- Carry out an operation; gives the tick to wait for next, if there is one. -/
def perform (p : Player α) : Operation α → Player α × Option Tick
  | .load t => (p.load t, none)
  | .play now => p.play now
  | .fire k now => p.fire k now
  | .pause => (p.pause, none)
  | .reset => (p.reset, none)
  | .setSpeed speed =>
    match p.setSpeed speed with
    | .ok q => (q, none)
    | .error _ => (p, none)
  | .setSingleBlock on => (p.setSingleBlock on, none)
  | .setOptionalStop on => (p.setOptionalStop on, none)

/-- The player after an operation. -/
def after (p : Player α) (op : Operation α) : Player α := (p.perform op).1

/-- The player after a sequence of operations. -/
def run (p : Player α) (ops : List (Operation α)) : Player α := ops.foldl after p

/-- The players that operations can lead to. -/
inductive Reachable : Player α → Prop where
  | new (baseStep : α) (interval : Nat) (speed : α) (singleBlock optionalStop : Bool) :
      Reachable (.new baseStep interval speed singleBlock optionalStop)
  | after {p : Player α} (op : Operation α) : Reachable p → Reachable (p.after op)

theorem Reachable.run (h : p.Reachable) (ops : List (Operation α)) : (p.run ops).Reachable := by
  induction ops generalizing p with
  | nil => exact h
  | cons op ops ih => exact ih (h.after op)

theorem after_setSpeed (speed : α) : p.after (.setSpeed speed) =
    if Scalar.isPositive speed = true then { p with speed := speed } else p := by
  by_cases h : Scalar.isPositive speed = true <;> simp [after, perform, setSpeed, h]

/-- An operation that runs a tick runs that tick and arms the next one, and does nothing else. -/
theorem perform_of_ticking?_eq_some (h : p.ticking? op = some q) :
    ∃ now, p.perform op = q.tick.armIfPlaying now := by
  cases op with
  | play now =>
    simp only [ticking?] at h
    split_ifs at h with hp
    obtain ⟨hp, hs⟩ := not_or.1 hp
    cases h
    exact ⟨now, by rw [perform, play, if_neg hp, if_neg hs]⟩
  | fire k now =>
    simp only [ticking?] at h
    split_ifs at h with hk
    obtain ⟨hk, hp⟩ := hk
    cases h
    exact ⟨now, by rw [perform, fire, if_pos hk, if_pos hp]⟩
  | _ => cases h

/-- Player `q` is player `p` on the point of running a tick. -/
structure Ticking (p q : Player α) : Prop where
  /-- Playback is running. -/
  phase : q.phase = .playing
  /-- The operator is told so. -/
  mode : q.mode = .running ∨ (p.phase = .playing ∧ q.mode = p.mode)
  /-- A player that was at rest has at least two points. -/
  two_le : p.phase ≠ .playing → 2 ≤ p.trace.size
  /-- The tick starts where the next tick of the player is due to. -/
  index : q.index = p.tickStart
  /-- The trace and the flags are those of the player. -/
  sameCourse : SameCourse q p
  /-- So is the budget. -/
  budget : q.budget = p.budget
  /-- So is the last block, until the tick has moved. -/
  lastBlock : q.lastBlock = p.lastBlock

theorem ticking_of_ticking?_eq_some (h : p.ticking? op = some q) : Ticking p q := by
  cases op with
  | play now =>
    simp only [ticking?] at h
    split_ifs at h with hp
    cases h
    obtain ⟨hp, hs⟩ := not_or.1 hp
    exact ⟨rfl, .inl rfl, fun _ => by omega, (tickStart_of_ne hp).symm, ⟨rfl, rfl, rfl⟩, rfl, rfl⟩
  | fire k now =>
    simp only [ticking?] at h
    split_ifs at h with hk
    cases h
    exact ⟨hk.2, .inr ⟨hk.2, rfl⟩, fun hne => absurd hk.2 hne, (tickStart_of_playing hk.2).symm,
      ⟨rfl, rfl, rfl⟩, rfl, rfl⟩
  | _ => cases h

/-- What an operation leaves that has run the tick of `q`. -/
theorem after_of_ticking?_eq_some (h : p.ticking? op = some q) :
    p.after op = { q.tick with timer := (p.after op).timer } := by
  obtain ⟨now, hperf⟩ := perform_of_ticking?_eq_some h
  rw [after, hperf]
  exact armIfPlaying_fst now

theorem sameCourse_after_of_ticking?_eq_some (h : p.ticking? op = some q) :
    SameCourse (p.after op) q := by
  rw [after_of_ticking?_eq_some h]
  exact ⟨tick_sameCourse.trace, tick_sameCourse.singleBlock, tick_sameCourse.optionalStop⟩

theorem after_sameCourse_of_ticking?_eq_some (h : p.ticking? op = some q) :
    SameCourse (p.after op) p :=
  (sameCourse_after_of_ticking?_eq_some h).trans (ticking_of_ticking?_eq_some h).sameCourse

theorem index_after_of_ticking?_eq_some (h : p.ticking? op = some q) :
    (p.after op).index = q.advanced.1 := by
  rw [after_of_ticking?_eq_some h]
  exact tick_index

end Player

/-- A straight path along the axis, given by the block and the M code of each point. -/
def Trace.straight (stamps : List (Nat × Option AuxCode)) : Trace Float :=
  .ofList (stamps.zipIdx.map fun ((block, aux), i) =>
    .make ⟨20.0, -Float.ofNat i⟩ .feed block 0.2 (some i) aux)

end Lathe
