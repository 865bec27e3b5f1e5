import Lathe.Proofs.Playback.Operation

/-!
# The state of a player

The fields of a player depend on each other: the phase says whether a tick is armed, where the
cursor can be and what the operator is told.  `Player.Sound` says how, and every reachable player
is sound (`Player.sound_of_reachable`).

`Player.checkedTick` is a tick that looks every point up before it uses it and fails where there
is none.  It never does: `Player.checkedTick_eq`.
-/

namespace Lathe

/-- The phase that a mode tells of. -/
def Mode.phase : Mode → Phase
  | loaded => .idle
  | running => .playing
  | paused | singleBlockPaused => .paused
  | finished => .finished

/-- What playback comes to rest as. -/
theorem Halt.rest?_spec {halt : Halt} {phase : Phase} {mode : Mode}
    (h : halt.rest? = some (phase, mode)) :
    mode.phase = phase ∧ ((phase = .paused ∧ halt ≠ .endOfTrace) ∨
      (phase = .finished ∧ (halt = .endOfTrace ∨ halt = .programEnd))) := by
  cases halt <;> simp only [Halt.rest?, Option.some.injEq, Prod.mk.injEq, reduceCtorEq] at h <;>
    obtain ⟨rfl, rfl⟩ := h <;> simp [Mode.phase]

namespace Player

variable {α : Type}

/-- The fields of a player agree with each other. -/
structure Sound (p : Player α) : Prop where
  /-- A tick is armed exactly while playback is running. -/
  armed_iff : p.timer.armed.isSome = true ↔ p.phase = .playing
  /-- The cursor is on a point, unless there is none. -/
  index_lt : p.index < p.trace.size ∨ (p.index = 0 ∧ p.trace.size = 0)
  /-- Playback that is running or paused is not on the last point. -/
  before_last : p.phase = .playing ∨ p.phase = .paused → p.index + 1 < p.trace.size
  /-- The operator is told of the phase. -/
  mode_phase : p.mode.phase = p.phase
  /-- Playback that is ready has not moved. -/
  idle : p.phase = .idle → p.index = 0 ∧ p.lastTick = none
  /-- Playback at the end is on the last point, or on the last one of a block that ends the
  program. -/
  finished : p.phase = .finished → p.index + 1 = p.trace.size ∨
    (p.trace.endsBlock p.index = true ∧
      (p.trace.get? p.index).bind Point.stop? = some .finish)

variable {p q : Player α}

theorem exists_get? {i : Nat} (hi : i < p.trace.size) : ∃ a, p.trace.get? i = some a :=
  ⟨_, Array.getElem?_eq_getElem hi⟩

theorem sound_new (baseStep : α) (interval : Nat) (speed : α) (singleBlock optionalStop : Bool) :
    (Player.new baseStep interval speed singleBlock optionalStop).Sound where
  armed_iff := by simp [Player.new, Timer.new]
  index_lt := .inr ⟨rfl, rfl⟩
  before_last := by rintro (h | h) <;> cases h
  mode_phase := rfl
  idle _ := ⟨rfl, rfl⟩
  finished h := by cases h

theorem sound_reset (p : Player α) : p.reset.Sound where
  armed_iff := by simp [reset, Timer.cancel]
  index_lt := by
    change 0 < p.trace.size ∨ (0 = 0 ∧ p.trace.size = 0)
    omega
  before_last := by rintro (h | h) <;> cases h
  mode_phase := rfl
  idle _ := ⟨rfl, rfl⟩
  finished h := by cases h

theorem Sound.pause (h : p.Sound) : p.pause.Sound := by
  by_cases hp : p.phase = .playing
  · rw [Player.pause, if_pos hp]
    refine ⟨by simp [Timer.cancel], h.index_lt, fun _ => h.before_last (.inl hp), rfl, ?_, ?_⟩
    · intro hi; cases hi
    · intro hf; cases hf
  · rw [Player.pause, if_neg hp]
    refine ⟨?_, h.index_lt, h.before_last, h.mode_phase, h.idle, h.finished⟩
    simpa [Timer.cancel] using hp

variable [Scalar α]

/-- A tick that is run while playback is running, with the next one armed, leaves a sound
player. -/
theorem sound_tick (hp : q.phase = .playing) (hm : q.mode.phase = .playing)
    (hi : q.index < q.trace.size) (now : Nat) : (q.tick.armIfPlaying now).1.Sound := by
  have hlt : q.tick.index < q.tick.trace.size := by
    rw [tick_index, tick_sameCourse.trace]; exact advanced_lt_size hi
  by_cases hb : q.advanced.2.halt = .budget
  -- out of budget: playback goes on, and the walk has not reached the last point
  · obtain ⟨hph, hmo, -⟩ := tick_of_budget hb
    rw [hp] at hph
    rw [armIfPlaying_of_playing hph]
    have hlast : q.tick.index + 1 < q.tick.trace.size := by
      rw [tick_index, tick_sameCourse.trace]; exact advanced_lt_of_budget hb
    refine ⟨by simpa [Timer.arm] using hph, .inl hlt, fun _ => hlast, ?_, ?_, ?_⟩
    · exact (congrArg Mode.phase hmo).trans (hm.trans hph.symm)
    · intro h; exact absurd (hph.symm.trans h) (by simp)
    · intro h; exact absurd (hph.symm.trans h) (by simp)
  -- halted: playback is at rest, and the reason says where the cursor can be
  · obtain ⟨⟨phase, mode⟩, hrest⟩ : ∃ rest, q.advanced.2.halt.rest? = some rest :=
      Option.ne_none_iff_exists'.1 (mt Halt.rest?_eq_none_iff.1 hb)
    obtain ⟨hph, hmo, hti⟩ := tick_of_rest hrest
    have hhalt : q.tick.haltAt? q.tick.index = some q.advanced.2.halt := by
      rw [tick_sameCourse.haltAt?, tick_index]; exact haltAt?_advanced hb
    obtain ⟨hmode, hcases⟩ := Halt.rest?_spec hrest
    have hne : q.tick.phase ≠ .playing := by
      rw [hph]; rcases hcases with ⟨rfl, -⟩ | ⟨rfl, -⟩ <;> simp
    rw [armIfPlaying_of_ne hne]
    refine ⟨by simpa [hti, Timer.cancel] using hne, .inl hlt, ?_, by rw [hmo, hph, hmode],
      ?_, ?_⟩
    · rintro (h | h)
      · exact absurd h hne
      · refine lt_size_of_haltAt?_ne ?_
        rw [hhalt]
        rcases hcases with ⟨-, he⟩ | ⟨hf, -⟩
        · simpa using he
        · rw [hph, hf] at h; cases h
    · intro h
      rcases hcases with ⟨rfl, -⟩ | ⟨rfl, -⟩ <;> rw [hph] at h <;> cases h
    · intro h
      rcases hcases with ⟨rfl, -⟩ | ⟨-, he | he⟩
      · rw [hph] at h; cases h
      · rw [he] at hhalt
        exact .inl (Nat.le_antisymm hlt (size_le_of_haltAt?_eq hhalt))
      · rw [he] at hhalt; exact .inr (of_haltAt?_eq_programEnd hhalt)

theorem after_play_of_ticking?_eq_none {now : Nat} (hn : p.ticking? (.play now) = none) :
    p.after (.play now) = p := by
  simp only [ticking?, ite_eq_left_iff, reduceCtorEq, imp_false, not_not] at hn
  by_cases hp : p.phase = .playing
  · simp [after, perform, play, hp]
  · simp [after, perform, play, hp, hn.resolve_left hp]

/-- Handing back a tick that is not live, or not awaited, changes nothing. -/
theorem Sound.perform_fire_of_ticking?_eq_none {k : Tick} {now : Nat} (h : p.Sound)
    (hn : p.ticking? (.fire k now) = none) : p.perform (.fire k now) = (p, none) := by
  simp only [ticking?, ite_eq_right_iff, reduceCtorEq, imp_false, not_and] at hn
  by_cases hk : p.timer.isLive k = true
  · refine absurd (h.armed_iff.1 ?_) (hn hk)
    unfold Timer.isLive at hk
    split at hk
    · rename_i ha; simp [ha]
    · cases hk
  · simp [perform, fire, hk]

theorem Sound.after_fire_of_ticking?_eq_none {k : Tick} {now : Nat} (h : p.Sound)
    (hn : p.ticking? (.fire k now) = none) : p.after (.fire k now) = p :=
  congrArg Prod.fst (h.perform_fire_of_ticking?_eq_none hn)

theorem Sound.index_lt_of_ticking (h : p.Sound) (hq : Ticking p q) :
    q.index < q.trace.size := by
  rw [hq.index, hq.sameCourse.trace]
  by_cases hp : p.phase = .playing
  · rw [tickStart_of_playing hp]
    have := h.before_last (.inl hp)
    omega
  · rw [tickStart_of_ne hp]; exact departure_lt (hq.two_le hp)

theorem Sound.mode_of_ticking (h : p.Sound) (hq : Ticking p q) : q.mode.phase = .playing := by
  obtain hm | ⟨hp, hm⟩ := hq.mode
  · rw [hm]; rfl
  · rw [hm, h.mode_phase, hp]

theorem Sound.after_of_ticking?_eq_some {op : Operation α} (h : p.Sound)
    (hq : p.ticking? op = some q) : (p.after op).Sound := by
  obtain ⟨now, hperf⟩ := perform_of_ticking?_eq_some hq
  have ht := ticking_of_ticking?_eq_some hq
  rw [after, hperf]
  exact sound_tick ht.phase (h.mode_of_ticking ht) (h.index_lt_of_ticking ht) now

/-- **Every operation keeps a player sound.** -/
theorem Sound.after (h : p.Sound) (op : Operation α) : (p.after op).Sound := by
  cases hq : p.ticking? op with
  | some q => exact h.after_of_ticking?_eq_some hq
  | none =>
    cases op with
    | load t => exact sound_reset _
    | play now => rw [after_play_of_ticking?_eq_none hq]; exact h
    | fire k now => rw [h.after_fire_of_ticking?_eq_none hq]; exact h
    | pause => exact h.pause
    | reset => exact sound_reset p
    | setSpeed speed =>
      rw [after_setSpeed]
      split_ifs
      · exact ⟨h.armed_iff, h.index_lt, h.before_last, h.mode_phase, h.idle, h.finished⟩
      · exact h
    | setSingleBlock on =>
      exact ⟨h.armed_iff, h.index_lt, h.before_last, h.mode_phase, h.idle, h.finished⟩
    | setOptionalStop on =>
      exact ⟨h.armed_iff, h.index_lt, h.before_last, h.mode_phase, h.idle, h.finished⟩

theorem Reachable.sound (h : p.Reachable) : p.Sound := by
  induction h with
  | new baseStep interval speed singleBlock optionalStop => exact sound_new ..
  | after op _ ih => exact ih.after op

/-! ### Points are looked up where there are any -/

/-- Why playback halts on reaching a point, if there is such a point. -/
def checkedHaltAt (p : Player α) (i : Nat) : Option (Option Halt) := do
  let reached ← p.trace.get? i
  return if p.trace.size ≤ i + 1 then some .endOfTrace
    else if p.trace.endsBlock i then p.blockHalt? reached.stop? else none

/-- `Player.advance` with every point looked up before it is used; also gives the block of the
last point reached. -/
def checkedAdvance (p : Player α) (budget : α) (i steps lastBlock : Nat) (distance : α) :
    Option (Nat × Nat × Report α) :=
  if distance < budget ∧ i < p.trace.size - 1 then do
    let here ← p.trace.get? i
    let next ← p.trace.get? (i + 1)
    let distance := distance + Scalar.max (here.distance next) minStep
    let halt? ← p.checkedHaltAt (i + 1)
    match halt? with
    | some halt => return (i + 1, next.block, ⟨steps + 1, distance, halt⟩)
    | none => checkedAdvance p budget (i + 1) (steps + 1) next.block distance
  else return (i, lastBlock, ⟨steps, distance, .budget⟩)
termination_by p.trace.size - i
decreasing_by omega

/-- `Player.tick` with every point looked up before it is used. -/
def checkedTick (p : Player α) : Option (Player α) := do
  let (i, lastBlock, report) ←
    if p.trace.size = 0 ∨ p.trace.size - 1 ≤ p.index then
      some (p.index, p.lastBlock, ⟨0, 0.0, .endOfTrace⟩)
    else p.checkedAdvance p.budget p.index 0 p.lastBlock 0.0
  return { p.arrive i report with lastBlock := lastBlock }

omit [Scalar α] in
theorem checkedHaltAt_eq {i : Nat} (hi : i < p.trace.size) :
    p.checkedHaltAt i = some (p.haltAt? i) := by
  obtain ⟨a, ha⟩ := exists_get? hi
  simp [checkedHaltAt, haltAt?, ha]

theorem checkedAdvance_eq {budget distance : α} {i steps : Nat} (lastBlock : Nat) :
    p.checkedAdvance budget i steps lastBlock distance =
      some ((p.advance budget i steps distance).1,
        if (p.advance budget i steps distance).1 = i then lastBlock
        else p.blockAt (p.advance budget i steps distance).1,
        (p.advance budget i steps distance).2) := by
  fun_induction p.advance budget i steps distance generalizing lastBlock with
  | case1 i steps _ h distance halt hh =>
    obtain ⟨a, ha⟩ := exists_get? (p := p) (Nat.lt_of_succ_lt h.2)
    obtain ⟨b, hb⟩ := exists_get? h.2
    rw [checkedAdvance, if_pos ⟨h.1, by omega⟩]
    simp [ha, hb, checkedHaltAt_eq h.2, hh, blockAt, distance, stepLength]
  | case2 i steps _ h distance hnone ih =>
    obtain ⟨a, ha⟩ := exists_get? (p := p) (Nat.lt_of_succ_lt h.2)
    obtain ⟨b, hb⟩ := exists_get? h.2
    have hlen : p.stepLength i = Scalar.max (a.distance b) minStep := by
      simp [stepLength, ha, hb]
    rw [checkedAdvance, if_pos ⟨h.1, by omega⟩]
    simp only [ha, hb, checkedHaltAt_eq h.2, hnone, Option.bind_eq_bind, Option.bind_some,
      ← hlen]
    have hle : i + 1 ≤ (p.advance budget (i + 1) (steps + 1) distance).1 := advance_passage.le
    rw [ih, if_neg (show (p.advance budget (i + 1) (steps + 1) distance).1 ≠ i by omega)]
    -- only where the walk ends at once is the block that of the point just reached
    split_ifs with heq
    · rw [heq, blockAt, hb]; rfl
    · rfl
  | case3 i steps _ h =>
    rw [checkedAdvance, if_neg fun h' => h ⟨h'.1, by omega⟩]
    simp

omit [Scalar α] in
theorem with_lastBlock_eq {n : Nat} (h : n = p.lastBlock) : { p with lastBlock := n } = p := by
  subst h; rfl

/-- **A tick looks up no point that there is not.** -/
theorem checkedTick_eq : p.checkedTick = some p.tick := by
  unfold checkedTick tick
  by_cases hi : p.index + 1 < p.trace.size
  · rw [if_neg (by omega), checkedAdvance_eq, advanced_of_lt hi]
    simp only [Option.bind_eq_bind, Option.bind_some, Option.pure_def]
    exact congrArg some (with_lastBlock_eq (arrive_lastBlock _ _).symm)
  · rw [if_pos (by omega), advanced_of_size_le (by omega)]
    simp only [Option.bind_eq_bind, Option.bind_some, Option.pure_def]
    exact congrArg some (with_lastBlock_eq (by rw [arrive_lastBlock, if_pos rfl]))

/-- **The state of a player.**  After any sequence of operations the fields of a player agree with
each other, and no tick that it runs next looks up a point that there is not. -/
theorem sound_of_reachable (h : p.Reachable) :
    p.Sound ∧ ∀ op q, p.ticking? op = some q → q.checkedTick = some q.tick :=
  ⟨h.sound, fun _ _ _ => checkedTick_eq⟩

/-- Playback that single-block mode has halted, then paused as well, with a tick handed back
late. -/
def haltedTwice : Player Float :=
  (Player.new 0.4 16 2.0 true false).run
    [.load (.straight [(1, none), (1, none), (2, none), (3, some ⟨30⟩), (4, none)]), .play 0,
      .fire ⟨1, 16⟩ 16, .pause, .fire ⟨1, 16⟩ 40]

theorem sound_haltedTwice :
    haltedTwice.Reachable ∧ haltedTwice.mode = .singleBlockPaused ∧ haltedTwice.Sound ∧
      ∀ op q, haltedTwice.ticking? op = some q → q.checkedTick = some q.tick :=
  have hr : haltedTwice.Reachable := (Reachable.new ..).run _
  ⟨hr, by decide +kernel, sound_of_reachable hr⟩

end Player

end Lathe
