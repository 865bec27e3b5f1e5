import Lathe.Playback.Host
import Lathe.Proofs.Playback.Schedule

/-!
# Playing round by round

In a *round* the host starts or resumes playback and hands every tick back that it is given, until
none comes.  It is never before a tick is due, but may be late by any time, and nothing counts the
ticks: `Host.settle`, `Host.round` and `Host.rounds` may go on forever, and then have no value.

With a budget above zero they do not.  A round ends where playback is bound to halt
(`Host.exists_round`), further on by at least as many points as it has counted ticks, and so the
rounds that follow each other reach the end (`Host.exists_playsOut`).  What holds of all rounds of
a run is proved by induction on `Host.PlaysOut`.
-/

namespace Lathe

namespace Player

variable {α : Type} [Scalar α] {p q : Player α} {op : Operation α} {st : Standing}

/-! ### Ticks that follow each other -/

@[simp] theorem tick_budget : p.tick.budget = p.budget := by
  unfold tick arrive
  dsimp only
  split <;> rfl

theorem budget_after_of_ticking?_eq_some (hq : p.ticking? op = some q) :
    (p.after op).budget = p.budget := by
  have htick : (p.after op).budget = q.tick.budget := by
    rw [after_of_ticking?_eq_some hq]
    rfl
  rw [htick, tick_budget, (ticking_of_ticking?_eq_some hq).budget]

omit [Scalar α] in
theorem Sound.armed_eq_none (h : p.Sound) (hp : p.phase ≠ .playing) : p.timer.armed = none :=
  Option.not_isSome_iff_eq_none.1 (mt h.armed_iff.1 hp)

/-- The tick that comes back is the one that is armed. -/
theorem perform_snd_of_ticking?_eq_some (h : p.Sound) (hq : p.ticking? op = some q) :
    (p.perform op).2 = (p.after op).timer.armed := by
  have hs := h.after op
  obtain ⟨now, hperf⟩ := perform_of_ticking?_eq_some hq
  rw [after, hperf] at hs ⊢
  by_cases hp : q.tick.phase = .playing
  · rw [armIfPlaying_of_playing hp]
    rfl
  · rw [armIfPlaying_of_ne hp] at hs ⊢
    exact (hs.armed_eq_none hp).symm

omit [Scalar α] in
/-- Where playback is bound to halt is a place for it to come to rest. -/
theorem Bound.exists_rest (hb : p.Bound st) :
    ∃ halt, st.halt = some halt ∧ halt.rest? = some (st.phase, st.mode) := by
  cases hb with
  | ahead halt hfirst hlt hhalt hst hrest => exact ⟨halt, hst, hrest⟩
  | here hlast hp hst => exact ⟨.endOfTrace, by rw [hst], by rw [hst]; rfl⟩

/-- Playback is running with a budget towards a halt, or has halted there. -/
structure Underway (p : Player α) (st : Standing) : Prop where
  sound : p.Sound
  budget : 0.0 < p.budget
  state : (p.phase = .playing ∧ p.Bound st) ∨ (p.phase ≠ .playing ∧ p.standing = st)

theorem Bound.underway (hb : p.Bound st) (h : p.Sound) (hpos : 0.0 < p.budget)
    (hq : p.ticking? op = some q) : (p.after op).Underway st := by
  have ht := ticking_of_ticking?_eq_some hq
  have hbudget := budget_after_of_ticking?_eq_some hq
  refine ⟨h.after op, by rwa [hbudget], ?_⟩
  obtain ⟨hspent, hb'⟩ | ⟨-, hst⟩ := hb.of_ticking hq (by rwa [ht.budget])
  · refine .inl ⟨?_, hb'⟩
    rw [after_of_ticking?_eq_some hq]
    exact (tick_of_budget hspent).1.trans ht.phase
  · refine .inr ⟨?_, hst⟩
    obtain ⟨halt, -, hrest⟩ := hb.exists_rest
    have hphase : (p.after op).phase = st.phase := congrArg Standing.phase hst
    rw [hphase]
    obtain ⟨hp, -⟩ | ⟨hp, -⟩ := (Halt.rest?_spec hrest).2
    · simp [hp]
    · simp [hp]

/-- Player `q` is what `ticks` ticks make of a player that is bound for `st`. -/
structure Arrives (p q : Player α) (ticks : Nat) (st : Standing) : Prop where
  sound : q.Sound
  sameCourse : SameCourse q p
  budget : q.budget = p.budget
  /-- Each tick has moved the cursor. -/
  le : p.index + ticks ≤ q.index
  standing : q.standing = st

theorem Arrives.cons {r : Player α} {n : Nat} (hq : p.ticking? op = some q)
    (hlt : p.index < (p.after op).index) (ha : (p.after op).Arrives r n st) :
    p.Arrives r (n + 1) st where
  sound := ha.sound
  sameCourse := ha.sameCourse.trans (after_sameCourse_of_ticking?_eq_some hq)
  budget := ha.budget.trans (budget_after_of_ticking?_eq_some hq)
  le := by have := ha.le; omega
  standing := ha.standing

omit [Scalar α] in
theorem ticking?_fire_armed {k : Tick} (hp : p.phase = .playing) (hk : p.timer.armed = some k)
    (now : Nat) : p.ticking? (.fire k now) = some { p with timer := p.timer.cancel } := by
  have hlive : p.timer.isLive k = true := by simp [Timer.isLive, hk]
  rw [ticking?, if_pos ⟨hlive, hp⟩]

/-- A tick that is handed back while playback is running moves the cursor. -/
theorem index_lt_after_fire {k : Tick} {now : Nat} (h : p.Sound)
    (hq : p.ticking? (.fire k now) = some q) (hpos : 0.0 < p.budget) :
    p.index < (p.after (.fire k now)).index := by
  have ht := ticking_of_ticking?_eq_some hq
  have hp := playing_of_ticking?_fire hq
  have hindex : q.index = p.index := by rw [ht.index, tickStart_of_playing hp]
  have hlt : q.index + 1 < q.trace.size := by
    rw [hindex, ht.sameCourse.trace]
    exact h.before_last (.inl hp)
  rw [index_after_of_ticking?_eq_some hq, ← hindex]
  exact index_lt_advanced (by rwa [ht.budget]) hlt

/-- Playback is at rest before the end, and ticks have a budget. -/
structure Ready (p : Player α) : Prop where
  sound : p.Sound
  phase : p.phase = .idle ∨ p.phase = .paused
  ahead : p.index + 1 < p.trace.size
  budget : 0.0 < p.budget

namespace Ready

theorem ne_playing (h : p.Ready) : p.phase ≠ .playing := by
  rcases h.phase with hp | hp <;> simp [hp]

theorem origin_eq (h : p.Ready) : p.origin = p.index := by
  refine origin_eq_index ?_ h.ahead
  rcases h.phase with hp | hp <;> simp [hp]

theorem ticking?_play (h : p.Ready) (now : Nat) : p.ticking? (.play now) = some p.started := by
  have := h.ahead
  exact Player.ticking?_play h.ne_playing (by omega) now

/-- Resuming moves the cursor, by the step off a stop or else by the tick. -/
theorem index_lt_after_play (h : p.Ready) (now : Nat) :
    p.index < (p.after (.play now)).index := by
  have hq := h.ticking?_play now
  rw [index_after_of_ticking?_eq_some hq]
  by_cases hpark : p.isParked p.origin = true
  · have hstep : p.started.index = p.index + 1 := by
      change p.departure = _
      rw [departure, if_pos hpark, h.origin_eq]
    have hle := index_le_advanced (p := p.started)
    omega
  · have hstay : p.started.index = p.index := by
      change p.departure = _
      rw [departure, if_neg hpark, h.origin_eq]
    rw [← hstay]
    exact index_lt_advanced h.budget (by rw [hstay]; exact h.ahead)

end Ready

/-- Player `q` is what a round of `ticks` ticks makes of a player. -/
structure Settles (p q : Player α) (ticks : Nat) : Prop where
  ready : p.Ready
  sound : q.Sound
  sameCourse : SameCourse q p
  budget : q.budget = p.budget
  pos : 0 < ticks
  /-- Each tick has moved the cursor. -/
  le : p.index + ticks ≤ q.index
  /-- Playback has halted where it was bound to. -/
  bound : p.Bound q.standing

namespace Settles

variable {n : Nat}

/-- A round ends in a pause or at the end. -/
theorem paused_or_finished (h : p.Settles q n) :
    q.phase = .paused ∨ (q.phase = .finished ∧
      (q.lastTick.map Report.halt = some .programEnd ∨
        q.lastTick.map Report.halt = some .endOfTrace)) := by
  obtain ⟨halt, hhalt, hrest⟩ := h.bound.exists_rest
  change q.lastTick.map Report.halt = some halt at hhalt
  change halt.rest? = some (q.phase, q.mode) at hrest
  rw [hhalt]
  obtain ⟨hp, -⟩ | ⟨hp, he⟩ := (Halt.rest?_spec hrest).2
  · exact .inl hp
  · exact .inr ⟨hp, by rcases he with rfl | rfl <;> simp⟩

/-- A round that ends in a pause can be followed by another one. -/
theorem ready_of_paused (h : p.Settles q n) (hp : q.phase = .paused) : q.Ready where
  sound := h.sound
  phase := .inr hp
  ahead := h.sound.before_last (.inr hp)
  budget := by rw [h.budget]; exact h.ready.budget

theorem index_lt (h : p.Settles q n) : p.index < q.index := by
  have := h.pos
  have := h.le
  omega

theorem index_lt_size (h : p.Settles q n) : q.index < p.trace.size := by
  rw [← h.sameCourse.trace]
  refine h.sound.index_lt.resolve_right fun hzero => ?_
  have := h.index_lt
  omega

theorem ticks_lt_size (h : p.Settles q n) : n < p.trace.size := by
  have := h.le
  have := h.index_lt_size
  omega

end Settles

end Player

namespace Host

variable {α : Type} [Scalar α]

/-! ### Rounds -/

/-- Carry out an operation of the player at a time; gives the tick to wait for next. -/
def operate (h : Host α) (op : Operation α) (now : Nat) : Host α × Option Tick :=
  let r := h.player.perform op
  ({ h with now := now }.receive r, r.2)

/-- Hand the next tick back, and so on until none comes.  Gives the number handed back; `late` is
the time that the host lets pass. -/
def settle (late : Host α → Nat) (h : Host α) (next : Option Tick) : Option (Host α × Nat) := do
  match next with
  | none => return (h, 0)
  | some k =>
    let now := k.due + late h
    let r := h.operate (.fire k now) now
    let (h', fired) ← r.1 |>.settle late r.2
    return (h', fired + 1)
partial_fixpoint

/-- Start or resume playback, which counts as a tick, and hand ticks back until none comes. -/
def round (late : Host α → Nat) (h : Host α) : Option (Host α × Nat) := do
  let now := h.now + late h
  let r := h.operate (.play now) now
  let (h', fired) ← settle late r.1 r.2
  return (h', fired + 1)

/-- Play round after round while playback is paused after it.  Gives the host after each round
with the ticks counted in it. -/
def rounds (late : Host α → Nat) (h : Host α) : Option (List (Host α × Nat)) := do
  let (h', ticks) ← round late h
  if h'.player.phase = .paused then
    let rest ← h' |>.rounds late
    return (h', ticks) :: rest
  else return [(h', ticks)]
partial_fixpoint

variable {late : Host α → Nat} {h h' : Host α} {n : Nat}

@[simp] theorem settle_none : h.settle late none = some (h, 0) := by
  rw [settle]
  rfl

omit [Scalar α] in
/-- One tick more than a run has counted. -/
theorem count_eq_iff {x : Option (Host α × Nat)} :
    (do let (h', ticks) ← x; return (h', ticks + 1)) = some (h', n) ↔
      ∃ m, n = m + 1 ∧ x = some (h', m) := by
  simp only [Option.bind_eq_bind, Option.bind_eq_some_iff, Option.pure_def, Option.some.injEq,
    Prod.exists, Prod.mk.injEq]
  constructor
  · rintro ⟨_, m, hx, rfl, rfl⟩
    exact ⟨m, rfl, hx⟩
  · rintro ⟨m, rfl, hx⟩
    exact ⟨h', m, hx, rfl, rfl⟩

theorem settle_some_eq_iff {k : Tick} : h.settle late (some k) = some (h', n) ↔
    ∃ m, n = m + 1 ∧ settle late (h.operate (.fire k (k.due + late h)) (k.due + late h)).1
      (h.operate (.fire k (k.due + late h)) (k.due + late h)).2 = some (h', m) := by
  rw [settle]
  exact count_eq_iff

theorem round_eq_iff : h.round late = some (h', n) ↔
    ∃ m, n = m + 1 ∧ settle late (h.operate (.play (h.now + late h)) (h.now + late h)).1
      (h.operate (.play (h.now + late h)) (h.now + late h)).2 = some (h', m) :=
  count_eq_iff

theorem operate_snd {op : Operation α} {q : Player α} (hs : h.player.Sound)
    (hq : h.player.ticking? op = some q) (now : Nat) :
    (h.operate op now).2 = (h.operate op now).1.player.timer.armed :=
  Player.perform_snd_of_ticking?_eq_some hs hq

/-- Playback that is underway halts after finitely many ticks, as every tick moves it on. -/
theorem exists_settle (late : Host α → Nat) {st : Standing} (hu : h.player.Underway st) :
    ∃ h' n, h.settle late h.player.timer.armed = some (h', n) ∧
      h.player.Arrives h'.player n st := by
  obtain ⟨d, hd⟩ : ∃ d, d = h.player.trace.size - h.player.index := ⟨_, rfl⟩
  induction d using Nat.strong_induction_on generalizing h with
  | h d ih =>
    obtain ⟨hp, hb⟩ | ⟨hp, hst⟩ := hu.state
    · obtain ⟨k, hk⟩ := Option.isSome_iff_exists.1 (hu.sound.armed_iff.2 hp)
      have hq := Player.ticking?_fire_armed hp hk (k.due + late h)
      have hlt := Player.index_lt_after_fire hu.sound hq hu.budget
      have hsize := hu.sound.before_last (.inl hp)
      have hless : (h.player.after (.fire k (k.due + late h))).trace.size -
          (h.player.after (.fire k (k.due + late h))).index < d := by
        rw [(Player.after_sameCourse_of_ticking?_eq_some hq).trace]
        omega
      obtain ⟨h', n, hrest, ha⟩ :=
        ih _ hless (h := (h.operate (.fire k (k.due + late h)) (k.due + late h)).1)
          (hb.underway hu.sound hu.budget hq) rfl
      rw [← operate_snd hu.sound hq] at hrest
      rw [hk]
      exact ⟨h', n + 1, settle_some_eq_iff.2 ⟨n, rfl, hrest⟩, .cons hq hlt ha⟩
    · rw [hu.sound.armed_eq_none hp]
      exact ⟨h, 0, settle_none, hu.sound, .refl _, rfl, by omega, hst⟩

/-- **A round ends.**  It does so where playback was bound to halt, and each tick that it counts
has moved the cursor. -/
theorem exists_round (late : Host α → Nat) (hr : h.player.Ready) :
    ∃ h' n, h.round late = some (h', n) ∧ h.player.Settles h'.player n := by
  obtain ⟨st, hb⟩ := Player.exists_bound hr.ne_playing
  have hq := hr.ticking?_play (h.now + late h)
  obtain ⟨h', n, hrest, ha⟩ :=
    exists_settle late (h := (h.operate (.play (h.now + late h)) (h.now + late h)).1)
      (hb.underway hr.sound hr.budget hq)
  have ha := Player.Arrives.cons hq (hr.index_lt_after_play (h.now + late h)) ha
  rw [← operate_snd hr.sound hq] at hrest
  refine ⟨h', n + 1, round_eq_iff.2 ⟨n, rfl, hrest⟩, ?_⟩
  exact ⟨hr, ha.sound, ha.sameCourse, ha.budget, by omega, ha.le, by rw [ha.standing]; exact hb⟩

/-! ### Rounds that follow each other -/

/-- A host plays to the end in the given rounds. -/
inductive PlaysOut (late : Host α → Nat) : Host α → List (Host α × Nat) → Prop where
  /-- The first round is the last one. -/
  | ended {h h' : Host α} {n : Nat} (hround : h.round late = some (h', n))
      (hs : h.player.Settles h'.player n) (hp : h'.player.phase = .finished) :
      PlaysOut late h [(h', n)]
  /-- The first round ends in a pause, and the others follow. -/
  | resumed {h h' : Host α} {n : Nat} {rs : List (Host α × Nat)}
      (hround : h.round late = some (h', n)) (hs : h.player.Settles h'.player n)
      (hp : h'.player.phase = .paused) (hrest : PlaysOut late h' rs) :
      PlaysOut late h ((h', n) :: rs)

theorem PlaysOut.ne_nil {rs : List (Host α × Nat)} (hrs : h.PlaysOut late rs) : rs ≠ [] := by
  cases hrs with
  | ended | resumed => simp

theorem PlaysOut.rounds_eq {rs : List (Host α × Nat)} (hrs : h.PlaysOut late rs) :
    h.rounds late = some rs := by
  induction hrs with
  | ended hround hs hp =>
    rw [rounds, hround]
    simp [hp]
  | resumed hround hs hp hrest ih =>
    rw [rounds, hround]
    simp [hp, ih]

/-- **Rounds reach the end.** -/
theorem exists_playsOut (late : Host α → Nat) (hr : h.player.Ready) :
    ∃ rs, h.PlaysOut late rs := by
  obtain ⟨d, hd⟩ : ∃ d, d = h.player.trace.size - h.player.index := ⟨_, rfl⟩
  induction d using Nat.strong_induction_on generalizing h with
  | h d ih =>
    obtain ⟨h', n, hround, hs⟩ := exists_round late hr
    obtain hp | ⟨hp, -⟩ := hs.paused_or_finished
    · have hlt := hs.index_lt
      have hlt' := hs.index_lt_size
      obtain ⟨rs, hrs⟩ := ih (h'.player.trace.size - h'.player.index)
        (by rw [hs.sameCourse.trace]; omega) (hs.ready_of_paused hp) rfl
      exact ⟨_, .resumed hround hs hp hrs⟩
    · exact ⟨_, .ended hround hs hp⟩

end Host

end Lathe
