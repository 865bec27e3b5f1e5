import Lathe.Proofs.Playback.Delivery

/-!
# Rewinding

Rewinding leaves nothing of what has been played: a rewound player goes on like one that has just
been made with the same base step and interval and has been given the same trace, speed and flags.
Only its timer has given out numbers before, so the ticks of the one have the numbers of the other
and a constant more.  The two runs are therefore compared through `Player.later`, which adds a
constant to the numbers; the host hands back to the new player the tick that has the number less
the constant (`Operation.earlier`).

* `Player.perform_later` : every operation does the same to both players.
* `Player.MadeAnew` : a player that has just been made like another one.
* `Player.Forgets` : what rewinding a player that was driven by a schedule comes to, and
  `Player.forgets` that it comes to this.
-/

namespace Lathe

/-! ### Ticks with later numbers -/

/-- The tick with a number larger by `d`. -/
def Tick.later (d : Nat) (k : Tick) : Tick := { k with id := k.id + d }

/-- The tick with a number smaller by `d`; zero, which no tick has, where there is none. -/
def Tick.earlier (d : Nat) (k : Tick) : Tick := { k with id := k.id - d }

/-- The timer that has given out `d` ticks more. -/
def Timer.later (d : Nat) (t : Timer) : Timer :=
  { t with nextId := t.nextId + d, armed := t.armed.map (Tick.later d) }

/-- The operation on a player that has given out `d` ticks fewer. -/
def Operation.earlier {α : Type} (d : Nat) : Operation α → Operation α
  | fire k now => fire (k.earlier d) now
  | op => op

/-- The operation prepares playback: it gives a player its trace, its speed or its flags. -/
def Operation.prepares {α : Type} : Operation α → Bool
  | load _ | setSpeed _ | setSingleBlock _ | setOptionalStop _ => true
  | play _ | fire _ _ | pause | reset => false

namespace Timer

variable {d : Nat} {t : Timer} {k : Tick}

@[simp] theorem later_cancel : (t.later d).cancel = t.cancel.later d := rfl

@[simp] theorem later_nextTick (now : Nat) : (t.later d).nextTick now = (t.nextTick now).later d :=
  rfl

@[simp] theorem later_arm (now : Nat) : (t.later d).arm now = (t.arm now).later d := by
  simp [arm, later, nextTick, Tick.later, Nat.add_right_comm]

/-- Numbers start at one. -/
structure Positive (t : Timer) : Prop where
  nextId : 0 < t.nextId
  armed : ∀ k, t.armed = some k → 0 < k.id

/-- A tick is live for a timer that has given out `d` ticks more if the earlier one is live. -/
theorem Positive.isLive_later (h : t.Positive) : (t.later d).isLive k = t.isLive (k.earlier d) := by
  unfold isLive
  cases ha : t.armed with
  | none => simp [later, ha]
  | some a =>
    have hpos := h.armed a ha
    -- a number up to `d` becomes zero, which is not that of `a`
    simp only [later, ha, Option.map_some, Tick.later, Tick.earlier]
    exact decide_eq_decide.2 (by omega)

end Timer

namespace Player

variable {α : Type} {p q : Player α} {d : Nat}

/-- The player whose timer has given out `d` ticks more. -/
def later (d : Nat) (p : Player α) : Player α := { p with timer := p.timer.later d }

theorem later_sameCourse : SameCourse (p.later d) p := ⟨rfl, rfl, rfl⟩

theorem later_pause : (p.later d).pause = p.pause.later d := by
  by_cases hp : p.phase = .playing <;> simp [pause, later, hp]

theorem later_armIfPlaying (now : Nat) : (p.later d).armIfPlaying now =
    ((p.armIfPlaying now).1.later d, (p.armIfPlaying now).2.map (.later d)) := by
  by_cases hp : p.phase = .playing <;> simp [armIfPlaying, later, hp]

theorem later_started : (p.later d).started = p.started.later d := rfl

variable [Scalar α] {op : Operation α} {ops : List (Operation α)} {k : Tick}

theorem later_advanced : (p.later d).advanced = p.advanced := by
  unfold advanced
  rw [later_sameCourse.advance]
  rfl

theorem later_tick : (p.later d).tick = p.tick.later d := by
  rw [tick, tick, later_advanced]
  unfold arrive
  cases hrest : p.advanced.2.halt.rest? <;> rfl

theorem later_play (now : Nat) : (p.later d).play now =
    ((p.play now).1.later d, (p.play now).2.map (.later d)) := by
  unfold play
  rw [later_started, later_tick, later_armIfPlaying]
  show (if p.phase = .playing then _ else if p.trace.size < 2 then _ else _) = _
  split_ifs <;> rfl

theorem later_fire (h : p.timer.Positive) (now : Nat) : (p.later d).fire k now =
    ((p.fire (k.earlier d) now).1.later d, (p.fire (k.earlier d) now).2.map (.later d)) := by
  have hused : { p.later d with timer := (p.later d).timer.cancel } =
      ({ p with timer := p.timer.cancel } : Player α).later d := rfl
  have hlive : (p.later d).timer.isLive k = p.timer.isLive (k.earlier d) := h.isLive_later
  unfold fire
  dsimp only
  rw [hused, hlive, later_tick, later_armIfPlaying]
  show (if p.timer.isLive (k.earlier d) = true then if p.phase = .playing then _ else _ else _) = _
  split_ifs <;> rfl

/-- **Every operation does the same to a player whose timer has given out more ticks.** -/
theorem perform_later (h : p.timer.Positive) (op : Operation α) : (p.later d).perform op =
    ((p.perform (op.earlier d)).1.later d, (p.perform (op.earlier d)).2.map (.later d)) := by
  cases op with
  | play now => exact later_play now
  | fire k now => exact later_fire h now
  | pause => exact Prod.ext later_pause rfl
  | setSpeed speed =>
    by_cases hs : Scalar.isPositive speed = true <;>
      simp [perform, setSpeed, Operation.earlier, hs, later]
  | _ => rfl

/-! ### Numbers from one on -/

theorem Sound.positive_after (h : p.Sound) (hpos : p.timer.Positive) (op : Operation α) :
    (p.after op).timer.Positive := by
  refine ⟨Nat.lt_of_lt_of_le hpos.nextId (h.nextId_le_after op), fun k hk => ?_⟩
  obtain ⟨hid, -⟩ | ⟨hk, -⟩ := h.of_armed_after hk
  · exact hid ▸ hpos.nextId
  · exact hpos.armed k hk

theorem Sound.positive_run (h : p.Sound) (hpos : p.timer.Positive) (ops : List (Operation α)) :
    (p.run ops).timer.Positive := by
  induction ops generalizing p with
  | nil => exact hpos
  | cons op ops ih => exact ih (h.after op) (h.positive_after hpos op)

/-- Every schedule leads a player whose timer has given out more ticks to the same. -/
theorem run_later (h : p.Sound) (hpos : p.timer.Positive) :
    (p.later d).run ops = (p.run (ops.map (.earlier d))).later d := by
  induction ops generalizing p with
  | nil => rfl
  | cons op ops ih =>
    have hafter : (p.later d).after op = (p.after (op.earlier d)).later d :=
      congrArg Prod.fst (perform_later hpos op)
    show ((p.later d).after op).run ops = ((p.after (op.earlier d)).run _).later d
    rw [hafter, ih (h.after _) (h.positive_after hpos _)]

/-- As many numbers are given out as ticks are armed. -/
theorem Sound.nextId_run (h : p.Sound) :
    (p.run ops).timer.nextId = p.timer.nextId + (p.ticksArmed ops).length := by
  induction ops generalizing p with
  | nil => rfl
  | cons op ops ih =>
    show ((p.after op).run ops).timer.nextId = _
    rw [ih (h.after op), ticksArmed, List.length_append]
    obtain ⟨hnone, hid⟩ | ⟨k, harm, -, hid⟩ := h.nextId_after op
    · simp [hnone, hid]
    · simp [harm, hid, Nat.add_assoc]

/-! ### Ticks that were given before -/

/-- The ticks that the operations of a schedule give to the host. -/
def ticksGiven (p : Player α) : List (Operation α) → List Tick
  | [] => []
  | op :: ops => (p.perform op).2.toList ++ (p.after op).ticksGiven ops

/-- A tick that an operation gives is armed then. -/
theorem Sound.armed_of_perform (h : p.Sound) (hk : (p.perform op).2 = some k) :
    (p.after op).timer.armed = some k := by
  cases hq : p.ticking? op with
  | some q =>
    obtain ⟨now, hperf⟩ := perform_of_ticking?_eq_some hq
    rw [hperf] at hk
    rw [Player.after, hperf]
    by_cases hp : q.tick.phase = .playing
    · rw [armIfPlaying_of_playing hp] at hk ⊢
      exact hk
    · rw [armIfPlaying_of_ne hp] at hk
      cases hk
  | none =>
    cases op with
    | play now =>
      rw [after_play_of_ticking?_eq_none hq]
      by_cases hp : p.phase = .playing
      · simpa [perform, play, hp] using hk
      · by_cases hs : p.trace.size < 2
        · simp [perform, play, hp, hs] at hk
        · rw [ticking?_play hp (by omega)] at hq
          cases hq
    | fire j now =>
      rw [h.perform_fire_of_ticking?_eq_none hq] at hk
      cases hk
    | setSpeed speed =>
      by_cases hs : Scalar.isPositive speed = true <;> simp [perform, setSpeed, hs] at hk
    | _ => cases hk

theorem Sound.nextId_le_run (h : p.Sound) (ops : List (Operation α)) :
    p.timer.nextId ≤ (p.run ops).timer.nextId := by
  rw [h.nextId_run]
  exact Nat.le_add_right _ _

/-- The number of a tick that was given is one that the timer has given out. -/
theorem Sound.lt_nextId_of_mem_ticksGiven (h : p.Sound) (hn : p.Numbered)
    (hk : k ∈ p.ticksGiven ops) : k.id < (p.run ops).timer.nextId := by
  induction ops generalizing p with
  | nil => cases hk
  | cons op ops ih =>
    obtain hk | hk := List.mem_append.1 hk
    · have harmed := h.armed_of_perform (Option.mem_toList.1 hk)
      exact Nat.lt_of_lt_of_le (hn.after h op k harmed) ((h.after op).nextId_le_run ops)
    · exact ih (h.after op) (hn.after h op) hk

theorem Spent.run {id : Nat} (hs : p.Spent id) (h : p.Sound) (ops : List (Operation α)) :
    (p.run ops).Spent id := by
  induction ops generalizing p with
  | nil => exact hs
  | cons op ops ih => exact ih (hs.after h op) (h.after op)

/-- Handing back a tick that is over changes nothing and gives no other tick. -/
theorem Spent.perform_fire (hs : p.Spent k.id) (h : p.Sound) (now : Nat) :
    p.perform (.fire k now) = (p, none) := by
  refine h.perform_fire_of_ticking?_eq_none ?_
  rw [← Option.not_isSome_iff_eq_none, ticking?_fire_isSome_iff, Timer.isLive_iff]
  rintro ⟨⟨a, ha, hid⟩, -⟩
  exact hs.ne a ha hid

/-! ### Players that have just been made -/

/-- Player `q` has just been made with the base step and the interval of `p`, and it has been given
the trace, the speed and the flags of `p`: when it was made or afterwards, in any order, and maybe
in place of others. -/
structure MadeAnew (p q : Player α) : Prop where
  /-- It was made and only prepared since. -/
  made : ∃ (speed : α) (singleBlock optionalStop : Bool) (settings : List (Operation α)),
    (∀ op ∈ settings, op.prepares = true) ∧
      q = (Player.new p.baseStep p.timer.interval speed singleBlock optionalStop).run settings
  /-- It plays the same trace. -/
  trace : q.trace = p.trace
  /-- Its speed is the same. -/
  speed : q.speed = p.speed
  /-- Single-block mode is the same. -/
  singleBlock : q.singleBlock = p.singleBlock
  /-- Optional stops are the same. -/
  optionalStop : q.optionalStop = p.optionalStop

/-- A player can be made anew. -/
theorem madeAnew_load (p : Player α) : MadeAnew p
    ((Player.new p.baseStep p.timer.interval p.speed p.singleBlock p.optionalStop).load p.trace) :=
  ⟨⟨p.speed, p.singleBlock, p.optionalStop, [.load p.trace], by simp [Operation.prepares], rfl⟩,
    rfl, rfl, rfl, rfl⟩

/-- A player that nothing has been played on: it is rewound and its timer is new. -/
def IsUntouched (p : Player α) : Prop :=
  p.reset = p ∧ p.timer = .new p.timer.interval

omit [Scalar α] in
theorem isUntouched_new (baseStep : α) (interval : Nat) (speed : α)
    (singleBlock optionalStop : Bool) :
    (Player.new baseStep interval speed singleBlock optionalStop).IsUntouched := ⟨rfl, rfl⟩

/-- Preparing playback does not touch the player. -/
theorem IsUntouched.after (h : p.IsUntouched) (hop : op.prepares = true) :
    (p.after op).IsUntouched ∧ (p.after op).baseStep = p.baseStep ∧
      (p.after op).timer = p.timer := by
  obtain ⟨hreset, htimer⟩ := h
  have hcancel : p.timer.cancel = p.timer := congrArg Player.timer hreset
  cases op with
  | load t => exact ⟨⟨rfl, hcancel.trans htimer⟩, rfl, hcancel⟩
  | setSpeed speed =>
    rw [after_setSpeed]
    split_ifs
    · exact ⟨⟨congrArg (fun p : Player α => { p with speed := speed }) hreset, htimer⟩, rfl, rfl⟩
    · exact ⟨⟨hreset, htimer⟩, rfl, rfl⟩
  | setSingleBlock on =>
    exact ⟨⟨congrArg (·.setSingleBlock on) hreset, htimer⟩, rfl, rfl⟩
  | setOptionalStop on =>
    exact ⟨⟨congrArg (·.setOptionalStop on) hreset, htimer⟩, rfl, rfl⟩
  | _ => cases hop

theorem IsUntouched.run (h : p.IsUntouched) (hops : ∀ op ∈ ops, op.prepares = true) :
    (p.run ops).IsUntouched ∧ (p.run ops).baseStep = p.baseStep ∧
      (p.run ops).timer = p.timer := by
  induction ops generalizing p with
  | nil => exact ⟨h, rfl, rfl⟩
  | cons op ops ih =>
    obtain ⟨hop, hops⟩ := List.forall_mem_cons.1 hops
    obtain ⟨hafter, hstep, htimer⟩ := h.after hop
    obtain ⟨hrun, hstep', htimer'⟩ := ih hafter hops
    exact ⟨hrun, hstep'.trans hstep, htimer'.trans htimer⟩

theorem MadeAnew.sound_positive (hq : MadeAnew p q) : q.Sound ∧ q.timer.Positive := by
  obtain ⟨speed, singleBlock, optionalStop, settings, -, rfl⟩ := hq.made
  have hnew := sound_new p.baseStep p.timer.interval speed singleBlock optionalStop
  have hpos : (Timer.new p.timer.interval).Positive := by
    refine ⟨Nat.one_pos, ?_⟩
    intro k hk
    cases hk
  exact ⟨hnew.run settings, hnew.positive_run hpos settings⟩

/-- A rewound player is one made anew whose timer has given out the ticks of the past. -/
theorem MadeAnew.reset_eq_later (hq : MadeAnew p q) (hd : p.timer.nextId = d + 1) :
    p.reset = q.later d := by
  obtain ⟨speed, singleBlock, optionalStop, settings, hset, rfl⟩ := hq.made
  obtain ⟨⟨hreset, -⟩, hstep, htimer⟩ := (isUntouched_new p.baseStep p.timer.interval speed
    singleBlock optionalStop).run hset
  rw [← hreset]
  have htimer' : p.timer.cancel = (Timer.new p.timer.interval).later d := by
    simp [Timer.cancel, Timer.later, Timer.new, hd, Nat.add_comm]
  simp only [reset, later, hq.trace, hq.speed, hq.singleBlock, hq.optionalStop, hstep, htimer,
    htimer']
  rfl

/-! ### Rewinding -/

/-- What rewinding comes to for player `p` after the schedule `past`, beside player `q`: each side
goes on with a schedule, and the host of `q` hands back the ticks whose numbers are smaller by as
many ticks as `past` has armed. -/
structure Forgets (p : Player α) (past : List (Operation α)) (q : Player α) : Prop where
  /-- Every schedule leaves the two players with the same trace, cursor, phase, mode, speed, flags,
  last block and last tick, and with ticks armed whose numbers differ by that constant. -/
  state : ∀ ops, (p.run past).reset.run ops =
    (q.run (ops.map (.earlier (p.ticksArmed past).length))).later (p.ticksArmed past).length
  /-- Every operation gives the same tick up to that constant, or gives none on both sides. -/
  tick : ∀ ops op, (((p.run past).reset.run ops).perform op).2 =
    ((q.run (ops.map (.earlier (p.ticksArmed past).length))).perform
      (op.earlier (p.ticksArmed past).length)).2.map (.later (p.ticksArmed past).length)
  /-- A tick that was given before the rewinding changes nothing when it is handed back after it,
  and it gives no other tick. -/
  stale : ∀ ops, ∀ k ∈ p.ticksGiven past, ∀ now,
    ((p.run past).reset.run ops).perform (.fire k now) = ((p.run past).reset.run ops, none)

/-- **Rewinding forgets the past.**  Whatever a player was asked for before, it goes on after
rewinding like a player made anew, whatever both are asked for from then on; and the ticks given
before have no effect any more. -/
theorem forgets (baseStep : α) (interval : Nat) (speed : α) (singleBlock optionalStop : Bool)
    (past : List (Operation α)) (q : Player α)
    (hq : MadeAnew ((Player.new baseStep interval speed singleBlock optionalStop).run past) q) :
    (Player.new baseStep interval speed singleBlock optionalStop).Forgets past q := by
  have hnew := sound_new baseStep interval speed singleBlock optionalStop
  have hfresh : (Player.new baseStep interval speed singleBlock optionalStop).Numbered := by
    intro k hk
    cases hk
  have hone : (Player.new baseStep interval speed singleBlock optionalStop).timer.nextId = 1 := rfl
  generalize Player.new baseStep interval speed singleBlock optionalStop = p at *
  obtain ⟨hsound, hpos⟩ := hq.sound_positive
  have hlater : (p.run past).reset = q.later (p.ticksArmed past).length := by
    refine hq.reset_eq_later ?_
    rw [hnew.nextId_run, hone, Nat.add_comm]
  have hstate : ∀ ops, (p.run past).reset.run ops =
      (q.run (ops.map (.earlier (p.ticksArmed past).length))).later (p.ticksArmed past).length := by
    intro ops
    rw [hlater, run_later hsound hpos]
  refine ⟨hstate, ?_, ?_⟩
  · intro ops op
    rw [hstate, perform_later (hsound.positive_run hpos _)]
  · intro ops k hk now
    have hspent : (p.run past).reset.Spent k.id := by
      refine ⟨hnew.lt_nextId_of_mem_ticksGiven hfresh hk, ?_⟩
      intro j hj
      cases hj
    exact (hspent.run (sound_reset _) ops).perform_fire ((sound_reset _).run ops) now

/-- A path with an end of the program on its way. -/
def endedEarly : Trace Float :=
  .straight [(1, none), (1, none), (2, none), (3, some ⟨30⟩), (4, none)]

/-- Playback that is slowed down on its way and goes on with a tick armed. -/
def slowedDown : List (Operation Float) :=
  [.load endedEarly, .play 0, .setSpeed 0.5, .fire ⟨1, 16⟩ 20]

/-- The same playback prepared in another order. -/
def prepared : List (Operation Float) := [.setSpeed 0.5, .load endedEarly, .setOptionalStop true]

theorem forgets_slowedDown :
    ((Player.new 0.4 16 2.0 false true).ticksGiven slowedDown).length = 2 ∧
      MadeAnew ((Player.new 0.4 16 2.0 false true).run slowedDown)
        ((Player.new 0.4 16 3.0 false false).run prepared) ∧
      (Player.new 0.4 16 2.0 false true).Forgets slowedDown
        ((Player.new 0.4 16 3.0 false false).run prepared) := by
  have hq : MadeAnew ((Player.new 0.4 16 2.0 false true).run slowedDown)
      ((Player.new 0.4 16 3.0 false false).run prepared) := by
    have hprepares : ∀ op ∈ prepared, op.prepares = true := by simp [prepared, Operation.prepares]
    refine ⟨⟨3.0, false, false, prepared, hprepares, ?_⟩, ?_, ?_, ?_, ?_⟩
    all_goals decide +kernel
  exact ⟨by decide +kernel, hq, forgets 0.4 16 2.0 false true slowedDown _ hq⟩

end Player

end Lathe
