import Lathe.Proofs.Playback.Invariant

/-!
# Playback under different schedules

A host may let playback run fast or slow, pause it and let it go on.  None of this decides where
playback halts: as long as ticks have a budget, they all approach the first halt ahead, and the
first tick that does not end on its budget ends there (`Player.standing_firstHalt?_eq`).

* `Player.firstHalt?` : the player after the first tick of a schedule that ends for another reason
  than its budget.
* `Player.Bound` : where a player that is not yet there is going to halt.  Operations that run no
  tick keep it (`Player.Bound.of_waits`), and a tick keeps it or halts there
  (`Player.Bound.of_ticking`).
-/

namespace Lathe

/-- Where playback has halted, and as what. -/
structure Standing where
  /-- The cursor. -/
  index : Nat
  /-- Why the last tick ended. -/
  halt : Option Halt
  /-- What playback is doing. -/
  phase : Phase
  /-- What the operator is told. -/
  mode : Mode
  /-- The block of the last point reached. -/
  lastBlock : Nat
  deriving DecidableEq, Repr

namespace Player

variable {α : Type}

/-- Where a player is, and as what. -/
def standing (p : Player α) : Standing :=
  ⟨p.index, p.lastTick.map Report.halt, p.phase, p.mode, p.lastBlock⟩

variable [Scalar α]

/-- An operation runs a tick that ends for another reason than its budget. -/
def haltsOn (p : Player α) (op : Operation α) : Bool :=
  (p.ticking? op).isSome && decide ((p.after op).lastTick.map Report.halt ≠ some .budget)

/-- The player after the first tick of a schedule that ends for another reason than its budget. -/
def firstHalt? (p : Player α) : List (Operation α) → Option (Player α)
  | [] => none
  | op :: ops => if p.haltsOn op then some (p.after op) else (p.after op).firstHalt? ops

/-- Every tick of a schedule has a budget. -/
def isBudgeted (p : Player α) : List (Operation α) → Bool
  | [] => true
  | op :: ops =>
    ((p.ticking? op).all fun q => decide (0.0 < q.budget)) && (p.after op).isBudgeted ops

variable {p q : Player α} {op : Operation α}

/-! ### Operations that run no tick -/

omit [Scalar α] in
theorem tickStart_congr (hc : SameCourse p q) (hi : p.index = q.index) (hp : p.phase = q.phase) :
    p.tickStart = q.tickStart := by
  have horigin : p.origin = q.origin := by
    unfold origin; rw [hc.trace, hi, hp]
  unfold tickStart departure
  rw [hc.isParked, horigin, hi, hp]

/-- What an operation does that runs no tick and keeps the course: at most, it pauses. -/
structure Waits (p q : Player α) : Prop where
  /-- The trace and the flags stay. -/
  sameCourse : SameCourse q p
  /-- The cursor stays. -/
  index : q.index = p.index
  /-- The last block stays. -/
  lastBlock : q.lastBlock = p.lastBlock
  /-- The phase stays, unless playback was running and is paused. -/
  phase : q.phase = p.phase ∨ (p.phase = .playing ∧ q.phase = .paused)

omit [Scalar α] in
theorem waits_refl (p : Player α) : Waits p p := ⟨.refl p, rfl, rfl, .inl rfl⟩

omit [Scalar α] in
theorem waits_pause (p : Player α) : Waits p p.pause := by
  refine ⟨pause_sameCourse, pause_index, ?_, ?_⟩
  · unfold pause; split_ifs <;> rfl
  · unfold pause
    split_ifs with hp
    · exact .inr ⟨hp, rfl⟩
    · exact .inl rfl

theorem Sound.waits (h : p.Sound) (hop : op.keepsCourse = true) (hn : p.ticking? op = none) :
    Waits p (p.after op) := by
  cases op with
  | play now => rw [after_play_of_ticking?_eq_none hn]; exact waits_refl p
  | fire k now => rw [h.after_fire_of_ticking?_eq_none hn]; exact waits_refl p
  | pause => exact waits_pause p
  | setSpeed speed =>
    rw [after_setSpeed]
    split_ifs
    · exact ⟨⟨rfl, rfl, rfl⟩, rfl, rfl, .inl rfl⟩
    · exact waits_refl p
  | _ => cases hop

omit [Scalar α] in
/-- The next tick of a player that was paused between halts runs from where the next one of the
running player would have. -/
theorem Waits.tickStart_eq (hw : Waits p q) (h : p.Sound)
    (hfree : p.phase = .playing → p.haltAt? p.index = none) : q.tickStart = p.tickStart := by
  obtain hp | ⟨hp, hq⟩ := hw.phase
  · exact tickStart_congr hw.sameCourse hw.index hp
  · have hlt := h.before_last (.inl hp)
    have horigin : q.origin = p.index := by
      rw [origin_eq_index (by simp [hq]) (by rw [hw.index, hw.sameCourse.trace]; exact hlt),
        hw.index]
    have hpark : q.isParked q.origin = false := by
      rw [hw.sameCourse.isParked, horigin, Bool.eq_false_iff]
      exact fun hpark => haltAt?_ne_none_of_isParked hpark (hfree hp)
    rw [tickStart_of_ne (by simp [hq]), departure_of_not_isParked hpark, horigin,
      tickStart_of_playing hp]

/-! ### Where playback is going to halt -/

/-- A player is going to halt as `st`: on the first halt ahead, or at once where it has stepped
onto the last point. -/
inductive Bound (p : Player α) (st : Standing) : Prop where
  /-- Ticks approach the first halt ahead. -/
  | ahead (halt : Halt) (hfirst : p.IsFirstHalt p.tickStart st.index)
      (hlt : st.index < p.trace.size) (hhalt : p.haltAt? st.index = some halt)
      (hst : st.halt = some halt) (hrest : halt.rest? = some (st.phase, st.mode))
      (hblock : st.lastBlock = p.blockAt st.index)
      (hfree : p.phase = .playing → p.haltAt? p.index = none)
  /-- The next tick starts on the last point. -/
  | here (hlast : p.trace.size ≤ p.tickStart + 1) (hp : p.phase ≠ .playing)
      (hst : st = ⟨p.tickStart, some .endOfTrace, .finished, .finished, p.lastBlock⟩)

omit [Scalar α] in
/-- A player at rest is bound for some halt. -/
theorem exists_bound (hp : p.phase ≠ .playing) : ∃ st, p.Bound st := by
  by_cases hlast : p.trace.size ≤ p.tickStart + 1
  · exact ⟨_, .here hlast hp rfl⟩
  · obtain ⟨k, hk⟩ := exists_isFirstHalt (p := p) (i := p.tickStart) (by omega)
    obtain ⟨halt, hhalt⟩ := Option.ne_none_iff_exists'.1 hk.halts
    have hne : halt ≠ .budget := by
      rintro rfl
      exact haltAt?_ne_budget k hhalt
    obtain ⟨⟨phase, mode⟩, hrest⟩ :=
      Option.ne_none_iff_exists'.1 (mt Halt.rest?_eq_none_iff.1 hne)
    exact ⟨⟨k, some halt, phase, mode, p.blockAt k⟩, .ahead halt hk (hk.lt_size (by omega)) hhalt
      rfl hrest rfl fun h => absurd h hp⟩

omit [Scalar α] in
/-- Waiting does not change where playback is going to halt. -/
theorem Bound.of_waits {st : Standing} (hb : p.Bound st) (h : p.Sound) (hw : Waits p q) :
    q.Bound st := by
  have hplaying : q.phase = .playing → p.phase = .playing := by
    intro hq
    obtain hp | ⟨-, hp⟩ := hw.phase
    · rw [← hp, hq]
    · rw [hp] at hq; cases hq
  have hc := hw.sameCourse
  cases hb with
  | ahead halt hfirst hlt hhalt hst hrest hblock hfree =>
    refine .ahead halt ?_ (hc.trace ▸ hlt) (hc.haltAt? _ ▸ hhalt) hst hrest ?_ fun hq => ?_
    · rw [hw.tickStart_eq h hfree]; exact hfirst.congr hc.symm
    · rw [hblock, hc.blockAt]
    · rw [hc.haltAt?, hw.index]; exact hfree (hplaying hq)
  | here hlast hp hst =>
    have hq : q.phase = p.phase := hw.phase.resolve_right fun h => hp h.1
    have hstart : q.tickStart = p.tickStart := tickStart_congr hc hw.index hq
    exact .here (by rw [hc.trace, hstart]; exact hlast) (by rwa [hq])
      (by rw [hst, hstart, hw.lastBlock])

theorem standing_after_of_ticking?_eq_some {phase : Phase} {mode : Mode}
    (hq : p.ticking? op = some q) (hrest : q.advanced.2.halt.rest? = some (phase, mode)) :
    (p.after op).standing = ⟨q.advanced.1, some q.advanced.2.halt, phase, mode,
      if q.advanced.1 = q.index then q.lastBlock else q.blockAt q.advanced.1⟩ := by
  obtain ⟨hph, hmo, -⟩ := tick_of_rest hrest
  rw [after_of_ticking?_eq_some hq]
  simp only [standing, tick_index, tick_lastTick, tick_lastBlock, hph, hmo, Option.map_some]

/-- A tick with a budget brings playback closer to where it is going to halt, or halts it there. -/
theorem Bound.of_ticking {st : Standing} (hb : p.Bound st) (hq : p.ticking? op = some q)
    (hpos : 0.0 < q.budget) :
    (q.advanced.2.halt = .budget ∧ (p.after op).Bound st) ∨
      (q.advanced.2.halt ≠ .budget ∧ (p.after op).standing = st) := by
  have ht := ticking_of_ticking?_eq_some hq
  have hc := ht.sameCourse
  have hc' := (sameCourse_after_of_ticking?_eq_some hq).trans hc
  have hindex := index_after_of_ticking?_eq_some hq
  cases hb with
  | ahead halt hfirst hlt hhalt hst hrest hblock hfree =>
    -- the tick starts where the player was due to, so the same halt is the first one ahead
    have hk : q.IsFirstHalt q.index st.index := by
      rw [ht.index]; exact hfirst.congr hc.symm
    have hi : q.index + 1 < q.trace.size := by
      have := hk.lt
      rw [hc.trace]; omega
    obtain ⟨hbud, hfwd, hk', hnone⟩ | ⟨hne, hk'⟩ := advanced_of_isFirstHalt hk hpos hi
    · have hphase : (p.after op).phase = .playing :=
        (congrArg Player.phase (after_of_ticking?_eq_some hq)).trans
          ((tick_of_budget hbud).1.trans ht.phase)
      refine .inl ⟨hbud, .ahead halt ?_ (hc'.trace ▸ hlt) (hc'.haltAt? _ ▸ hhalt) hst hrest ?_
        fun _ => ?_⟩
      · rw [tickStart_of_playing hphase, hindex]
        exact (hk.from_later (Nat.le_of_lt hfwd) hk').congr (hc.trans hc'.symm)
      · rw [hblock, hc'.blockAt]
      · rw [hindex, hc'.haltAt?, ← hc.haltAt?]; exact hnone
    · have heq : q.advanced.2.halt = halt := by
        have := haltAt?_advanced hne
        rw [hk', hc.haltAt?, hhalt] at this
        exact (Option.some.inj this).symm
      refine .inr ⟨hne, ?_⟩
      rw [standing_after_of_ticking?_eq_some hq (heq ▸ hrest), heq, hk',
        if_neg (Nat.ne_of_gt hk.lt), ← hst, hc.blockAt, ← hblock]
  | here hlast hp hst =>
    have hadv : q.advanced = (q.index, ⟨0, 0.0, .endOfTrace⟩) :=
      advanced_of_size_le (by rw [hc.trace, ht.index]; exact hlast)
    refine .inr ⟨by rw [hadv]; simp, ?_⟩
    rw [standing_after_of_ticking?_eq_some hq (by rw [hadv]; rfl), hadv, if_pos rfl, hst, ht.index,
      ht.lastBlock]

/-! ### Schedules -/

theorem haltsOn_of_ticking?_eq_some (hq : p.ticking? op = some q) :
    p.haltsOn op = decide (q.advanced.2.halt ≠ .budget) := by
  rw [haltsOn, hq, after_of_ticking?_eq_some hq]
  simp

theorem Bound.standing_firstHalt? {st : Standing} {ops : List (Operation α)} (hb : p.Bound st)
    (h : p.Sound) (hops : ∀ op ∈ ops, op.keepsCourse = true) (hpos : p.isBudgeted ops = true)
    (hq : p.firstHalt? ops = some q) : q.standing = st := by
  -- along the schedule `Bound` is kept by every operation up to the one that halts
  induction ops generalizing p with
  | nil => cases hq
  | cons op ops ih =>
    obtain ⟨hop, hops⟩ := List.forall_mem_cons.1 hops
    rw [isBudgeted, Bool.and_eq_true] at hpos
    obtain ⟨hpos, hpos'⟩ := hpos
    rw [firstHalt?] at hq
    cases ht : p.ticking? op with
    | none =>
      rw [if_neg (by simp [haltsOn, ht])] at hq
      exact ih (hb.of_waits h (h.waits hop ht)) (h.after op) hops hpos' hq
    | some r =>
      rw [haltsOn_of_ticking?_eq_some ht] at hq
      rw [ht, Option.all_some, decide_eq_true_eq] at hpos
      obtain ⟨hbud, hb'⟩ | ⟨hne, hst⟩ := hb.of_ticking ht hpos
      · rw [if_neg (by simp [hbud])] at hq
        exact ih hb' (h.after op) hops hpos' hq
      · rw [if_pos (by simp [hne])] at hq
        cases hq
        exact hst

/-- **Where playback halts does not depend on speed or on pauses.**  From a reachable player at
rest, take any two schedules that start, resume and pause playback, hand ticks back and change the
speed in any order, such that each tick has a budget.  The first tick that ends for another reason
than its budget leaves both runs at the same point, for the same reason and as the same. -/
theorem standing_firstHalt?_eq {q₁ q₂ : Player α} {ops₁ ops₂ : List (Operation α)}
    (h : p.Reachable) (hp : p.phase ≠ .playing)
    (hops₁ : ∀ op ∈ ops₁, op.keepsCourse = true) (hops₂ : ∀ op ∈ ops₂, op.keepsCourse = true)
    (hpos₁ : p.isBudgeted ops₁ = true) (hpos₂ : p.isBudgeted ops₂ = true)
    (hq₁ : p.firstHalt? ops₁ = some q₁) (hq₂ : p.firstHalt? ops₂ = some q₂) :
    q₁.standing = q₂.standing := by
  obtain ⟨st, hb⟩ := exists_bound hp
  rw [hb.standing_firstHalt? h.sound hops₁ hpos₁ hq₁,
    hb.standing_firstHalt? h.sound hops₂ hpos₂ hq₂]

/-- A path with a stop on its way, loaded and not yet played. -/
def beforeStop : Player Float :=
  (Player.new 0.4 16 100.0 false false).run
    [.load (.straight [(1, none), (2, none), (2, none), (2, some ⟨0⟩), (3, none), (4, none)])]

/-- At full speed one tick reaches the stop; at a slow one, with a pause, it takes three. -/
theorem standing_firstHalt?_eq_slow :
    beforeStop.Reachable ∧ beforeStop.phase ≠ .playing ∧
      (beforeStop.firstHalt? [.play 0]).map standing =
        (beforeStop.firstHalt? [.setSpeed 2.5, .play 0, .pause, .setSpeed 3.0, .play 9,
          .fire ⟨2, 25⟩ 25]).map standing := by
  have hr : beforeStop.Reachable := (Reachable.new ..).run _
  refine ⟨hr, by decide +kernel, ?_⟩
  obtain ⟨q₁, hq₁⟩ := Option.isSome_iff_exists.1
    (by decide +kernel : (beforeStop.firstHalt? [.play 0]).isSome = true)
  obtain ⟨q₂, hq₂⟩ := Option.isSome_iff_exists.1
    (by decide +kernel : (beforeStop.firstHalt? [.setSpeed 2.5, .play 0, .pause, .setSpeed 3.0,
      .play 9, .fire ⟨2, 25⟩ 25]).isSome = true)
  rw [hq₁, hq₂]
  exact congrArg some (standing_firstHalt?_eq hr (by decide +kernel) (by decide) (by decide)
    (by decide +kernel) (by decide +kernel) hq₁ hq₂)

end Player

end Lathe
