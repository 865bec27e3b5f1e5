import Lathe.Proofs.Playback.Tick
import Lathe.Proofs.Trace.Distance

/-!
# The budget of a tick

A tick advances playback by a distance: it moves on from point to point until the budget is used
up.  A step onto a point nearer than a thousandth counts as a thousandth, so that every step uses up
some of it.  Three things end a tick, and they are looked for in different places: the budget before
a step, a halt behind it, and the end of the trace both times.

`Player.exists_spendsBudget_tick` says which comes first.  A tick goes to the first halt ahead or to
the point by which the budget is used up, whichever is nearer, and if they are the same point the
halt counts.

* `Player.counted` : the distance counted between two points.
* `Player.Covers` : what a walk has covered when it ends; `Player.advance_covers` is by induction on
  the walk.
* `Player.IsSpentAt` : the point by which the budget of a tick is used up.
* `Player.SpendsBudget` : where a tick ends, what it reports, and the state that it leaves.
-/

namespace Lathe

namespace Player

variable {p q : Player ℝ} {budget distance : ℝ} {i j k m steps : Nat}

/-- The distance counted on the way from one point to a later one. -/
noncomputable def counted (p : Player ℝ) (i j : Nat) : ℝ :=
  ∑ n ∈ Finset.Ico i j, p.stepLength n

theorem counted_self (p : Player ℝ) (i : Nat) : p.counted i i = 0 := by
  rw [counted, Finset.Ico_self, Finset.sum_empty]

theorem counted_of_lt (p : Player ℝ) (h : i < j) :
    p.counted i j = p.stepLength i + p.counted (i + 1) j :=
  Finset.sum_eq_sum_Ico_succ_bot h _

/-- A step counts its distance, or a thousandth if it is shorter. -/
theorem stepLength_of_get? {a b : Point ℝ} (ha : p.trace.get? i = some a)
    (hb : p.trace.get? (i + 1) = some b) : p.stepLength i = max (a.distance b) 0.001 := by
  rw [stepLength, ha, hb]
  exact Scalar.max_real _ _

/-! ### The walk of a tick -/

/-- What a walk covers from point `i` to point `j`, if it has `distance` and `steps` behind it at
the start and ends with a report. -/
structure Covers (p : Player ℝ) (budget : ℝ) (i steps : Nat) (distance : ℝ) (j : Nat)
    (report : Report ℝ) : Prop where
  /-- Every point is a step. -/
  steps_eq : report.steps = steps + (j - i)
  /-- Every step counts its length. -/
  distance_eq : report.distance = distance + p.counted i j
  /-- No point on the way uses up the budget. -/
  unspent : ∀ n, i ≤ n → n < j → distance + p.counted i n < budget
  /-- The budget is used up at the end, or nothing is left of the trace. -/
  spent : report.halt = .budget → budget ≤ distance + p.counted i j ∨ p.trace.size ≤ j + 1

/-- **What a walk covers.**  Wherever it starts, and whatever it has behind it. -/
theorem advance_covers : p.Covers budget i steps distance (p.advance budget i steps distance).1
    (p.advance budget i steps distance).2 := by
  fun_induction p.advance budget i steps distance with
  | case1 i steps distance hlt distance' halt hh =>
    refine ⟨by simp, ?_, fun n hi hn => ?_, fun hb => ?_⟩
    · rw [counted_of_lt p (Nat.lt_succ_self i), counted_self, add_zero]
    · obtain rfl : n = i := by omega
      rw [counted_self, add_zero]
      exact hlt.1
    · exact absurd (hh.trans (congrArg some hb)) (haltAt?_ne_budget _)
  | case2 i steps distance hlt distance' hnone ih =>
    have hle : i < (p.advance budget (i + 1) (steps + 1) distance').1 := advance_passage.le
    -- the step onto the next point is counted before the rest of the walk
    have hstep : ∀ n, i < n → distance + p.counted i n = distance' + p.counted (i + 1) n :=
      fun n hn => by rw [counted_of_lt p hn, ← add_assoc]
    refine ⟨by rw [ih.steps_eq]; omega, by rw [ih.distance_eq, hstep _ hle], fun n hi hn => ?_,
      fun hb => ?_⟩
    · obtain rfl | hi := Nat.eq_or_lt_of_le hi
      · rw [counted_self, add_zero]
        exact hlt.1
      · rw [hstep n hi]
        exact ih.unspent n hi hn
    · rw [hstep _ hle]
      exact ih.spent hb
  | case3 i steps distance hnot =>
    refine ⟨by simp, by simp [counted_self], fun n hi hn => absurd hn (by omega), fun _ => ?_⟩
    rw [counted_self, add_zero]
    exact (not_and_or.1 hnot).imp not_lt.1 not_lt.1

/-! ### One tick -/

/-- Point `m` is the first one after the cursor by which the budget of a tick is used up. -/
structure IsSpentAt (p : Player ℝ) (m : Nat) : Prop where
  /-- It comes after the cursor. -/
  lt : p.index < m
  /-- It is on the trace. -/
  lt_size : m < p.trace.size
  /-- What is counted up to it is as much as the budget. -/
  spent : p.budget ≤ p.counted p.index m
  /-- Up to no point before it is it as much. -/
  unspent : ∀ n, p.index < n → n < m → p.counted p.index n < p.budget

theorem IsSpentAt.unique (hm : p.IsSpentAt m) (hk : p.IsSpentAt k) : m = k := by
  rcases lt_trichotomy m k with h | h | h
  · exact absurd hm.spent (hk.unspent m hm.lt h).not_ge
  · exact h
  · exact absurd hk.spent (hm.unspent k hk.lt h).not_ge

/-- What a tick covers. -/
theorem advanced_covers (hi : p.index + 1 < p.trace.size) :
    p.Covers p.budget p.index 0 0 p.advanced.1 p.advanced.2 := by
  rw [advanced_of_lt hi, ← Scalar.zero_real]
  exact advance_covers

/-- On the way of a tick the budget is not used up. -/
theorem counted_lt_budget (hi : p.index + 1 < p.trace.size) (hle : p.index ≤ j)
    (hlt : j < p.advanced.1) : p.counted p.index j < p.budget := by
  have hunspent := (advanced_covers hi).unspent j hle hlt
  rwa [zero_add] at hunspent

/-- A tick that ends on its budget does so where it is used up. -/
theorem isSpentAt_advanced (hb : 0.0 < p.budget) (h : p.advanced.2.halt = .budget) :
    p.IsSpentAt p.advanced.1 := by
  have hsize := advanced_lt_of_budget h
  have hi : p.index + 1 < p.trace.size := by
    have := index_le_advanced (p := p)
    omega
  have hspent := (advanced_covers hi).spent h
  rw [zero_add] at hspent
  exact ⟨index_lt_advanced hb hi, by omega, hspent.resolve_right (by omega),
    fun n hn => counted_lt_budget hi hn.le⟩

/-- No tick goes on behind the point by which its budget is used up. -/
theorem IsSpentAt.advanced_le (hm : p.IsSpentAt m) : p.advanced.1 ≤ m := by
  have hi : p.index + 1 < p.trace.size := hm.lt_size.trans_le' (Nat.succ_le_of_lt hm.lt)
  by_contra hlt
  exact absurd hm.spent (counted_lt_budget hi hm.lt.le (not_le.1 hlt)).not_ge

section

variable (hk : p.IsFirstHalt p.index k) (hb : 0.0 < p.budget) (hi : p.index + 1 < p.trace.size)

include hk hb hi

/-- A tick ends on its budget exactly if that is used up before the first halt. -/
theorem halt_advanced_eq_budget_iff :
    p.advanced.2.halt = .budget ↔ ∃ m, p.IsSpentAt m ∧ m < k := by
  obtain ⟨hbudget, -, hjk, -⟩ | ⟨hne, heq⟩ := advanced_of_isFirstHalt hk hb hi
  · exact ⟨fun _ => ⟨_, isSpentAt_advanced hb hbudget, hjk⟩, fun _ => hbudget⟩
  · refine ⟨fun h => absurd h hne, ?_⟩
    rintro ⟨m, hm, hmk⟩
    exact absurd (heq ▸ hm.advanced_le) hmk.not_ge

/-- A tick goes to its first halt or to where the budget is used up, whichever is nearer. -/
theorem advanced_eq_min (hm : p.IsSpentAt m) : p.advanced.1 = min k m := by
  obtain ⟨hbudget, -, hjk, -⟩ | ⟨-, heq⟩ := advanced_of_isFirstHalt hk hb hi
  · rw [(isSpentAt_advanced hb hbudget).unique hm] at hjk ⊢
    exact (min_eq_right hjk.le).symm
  · rw [← heq]
    exact (min_eq_left hm.advanced_le).symm

/-- With more budget than there is trace a tick goes to its first halt. -/
theorem advanced_eq_of_unspent (h : ∀ m, ¬ p.IsSpentAt m) : p.advanced.1 = k := by
  obtain ⟨hbudget, -⟩ | ⟨-, heq⟩ := advanced_of_isFirstHalt hk hb hi
  · exact absurd (isSpentAt_advanced hb hbudget) (h _)
  · exact heq

/-- A tick that ends on a halt ends on the first one. -/
theorem haltAt?_firstHalt (h : p.advanced.2.halt ≠ .budget) :
    p.haltAt? k = some p.advanced.2.halt := by
  obtain ⟨hbudget, -⟩ | ⟨-, heq⟩ := advanced_of_isFirstHalt hk hb hi
  · exact absurd hbudget h
  · rw [← heq]
    exact haltAt?_advanced h

end

/-- A tick that moves on leaves the block of the point it reaches. -/
theorem exists_tick_lastBlock (hlt : p.index < p.advanced.1) (h : p.advanced.1 < p.trace.size) :
    ∃ point, p.trace.get? p.advanced.1 = some point ∧ p.tick.lastBlock = point.block := by
  have hpoint : p.trace.get? p.advanced.1 = some p.trace.points[p.advanced.1] :=
    Array.getElem?_eq_getElem h
  refine ⟨_, hpoint, ?_⟩
  rw [tick_lastBlock, if_neg hlt.ne', blockAt, hpoint]
  rfl

/-- What a tick of `p` that has its first halt ahead at point `k` leaves as `q`, with a report. -/
structure SpendsBudget (p q : Player ℝ) (k : Nat) (report : Report ℝ) : Prop where
  /-- It goes to the halt or to where the budget is used up, whichever comes first. -/
  index_of_spent : ∀ m, p.IsSpentAt m → q.index = min k m
  /-- If the trace is too short to use it up, it goes to the halt. -/
  index_of_unspent : (∀ m, ¬ p.IsSpentAt m) → q.index = k
  /-- It ends on its budget exactly if that is used up before the halt. -/
  budget_iff : report.halt = .budget ↔ ∃ m, p.IsSpentAt m ∧ m < k
  /-- Otherwise it ends on the halt, also if the budget is used up there. -/
  halted : report.halt ≠ .budget → p.haltAt? k = some report.halt
  /-- The report is that of the tick. -/
  lastTick_eq : q.lastTick = some report
  /-- Every point moved on is a step. -/
  steps_eq : report.steps = q.index - p.index
  /-- The distance is what the steps count. -/
  distance_eq : report.distance = p.counted p.index q.index
  /-- Without the last step the budget is not used up. -/
  unspent : p.counted p.index (q.index - 1) < p.budget
  /-- On its budget the tick leaves playback running. -/
  runs : report.halt = .budget → q.phase = p.phase ∧ q.mode = p.mode ∧ q.timer = p.timer
  /-- A stop pauses. -/
  pauses : report.halt = .programStop ∨ report.halt = .optionalStop →
    q.phase = .paused ∧ q.mode = .paused ∧ q.timer = p.timer.cancel
  /-- So does the end of a block, and tells so. -/
  pausesAtBlock : report.halt = .singleBlock →
    q.phase = .paused ∧ q.mode = .singleBlockPaused ∧ q.timer = p.timer.cancel
  /-- The end of the program or of the trace finishes. -/
  finishes : report.halt = .programEnd ∨ report.halt = .endOfTrace →
    q.phase = .finished ∧ q.mode = .finished ∧ q.timer = p.timer.cancel
  /-- The last block is that of the point reached. -/
  lastBlock_eq : ∃ point, p.trace.get? q.index = some point ∧ q.lastBlock = point.block
  /-- Trace and flags are kept. -/
  sameCourse : SameCourse q p

/-- **One tick takes one distance budget.**  Ahead of the last point, and with a budget to spend, a
tick has a first halt ahead and goes to it or to where the budget is used up, whichever is nearer.
It ends on its budget exactly if that is used up before the halt, and on the halt otherwise.  The
report has as many steps as the tick moves on and the distance that they count, which without the
last of them is less than the budget.  On its budget the tick leaves playback running; a stop and
the end of a block pause it, and the end of the program or of the trace finishes it. -/
theorem exists_spendsBudget_tick (hb : 0 < p.budget) (hi : p.index + 1 < p.trace.size) :
    ∃ k report, p.IsFirstHalt p.index k ∧ p.SpendsBudget p.tick k report := by
  rw [← Scalar.zero_real] at hb
  obtain ⟨k, hk⟩ := exists_isFirstHalt hi
  have hcov := advanced_covers hi
  have hlt := index_lt_advanced hb hi
  refine ⟨k, p.advanced.2, hk, ?_⟩
  constructor
  case index_of_spent => exact fun m hm => tick_index.trans (advanced_eq_min hk hb hi hm)
  case index_of_unspent => exact fun h => tick_index.trans (advanced_eq_of_unspent hk hb hi h)
  case budget_iff => exact halt_advanced_eq_budget_iff hk hb hi
  case halted => exact fun h => haltAt?_firstHalt hk hb hi h
  case lastTick_eq => exact tick_lastTick
  case steps_eq => rw [tick_index, hcov.steps_eq, Nat.zero_add]
  case distance_eq => rw [tick_index, hcov.distance_eq, zero_add]
  case unspent =>
    rw [tick_index]
    exact counted_lt_budget hi (by omega) (by omega)
  case runs => exact tick_of_budget
  case pauses => rintro (h | h) <;> exact tick_of_rest (by rw [h]; rfl)
  case pausesAtBlock => exact fun h => tick_of_rest (by rw [h]; rfl)
  case finishes => rintro (h | h) <;> exact tick_of_rest (by rw [h]; rfl)
  case lastBlock_eq =>
    rw [tick_index]
    exact exists_tick_lastBlock hlt (advanced_lt_size (by omega))
  case sameCourse => exact tick_sameCourse

/-- Ahead of two moves as long as half a budget, of which the second ends on a program stop. -/
noncomputable def evenly : Player ℝ :=
  (Player.new 2.0 16 1 false false).load (.ofList
    [.make ⟨20.0, 0⟩ .start 1 0 (some 0) none, .make ⟨20.0, -1⟩ .feed 2 0.2 (some 1) none,
      .make ⟨20.0, -2.0⟩ .feed 3 0.2 (some 2) (some ⟨0⟩),
      .make ⟨20.0, -3.0⟩ .feed 4 0.2 (some 3) none])

theorem counted_evenly (hj : j ≤ 3) : evenly.counted evenly.index j = j := by
  have hstep : ∀ n ∈ Finset.Ico 0 j, evenly.stepLength n = 1 := by
    intro n hn
    have hn3 : n < 3 := (Finset.mem_Ico.1 hn).2.trans_le hj
    interval_cases n <;> rw [stepLength_of_get? rfl rfl] <;>
      norm_num [evenly, load, reset, Trace.ofList, Point.make, Point.distance,
        Position.distance_eq_sqrt]
  exact (Finset.sum_congr rfl hstep).trans (by simp)

theorem exists_spendsBudget_tick_evenly :
    0 < evenly.budget ∧ evenly.index + 1 < evenly.trace.size ∧ evenly.IsSpentAt 2 ∧
      ∃ report, evenly.SpendsBudget evenly.tick 2 report ∧ report.halt = .programStop := by
  have hbudget : evenly.budget = 2 := by
    change (2.0 : ℝ) * 1 = 2
    norm_num
  have hpos : 0 < evenly.budget := hbudget ▸ two_pos
  have hsize : evenly.index + 1 < evenly.trace.size := by decide
  have hspent : evenly.IsSpentAt 2 := by
    refine ⟨by decide, by decide, ?_, fun n _ hn => ?_⟩
    · rw [hbudget, counted_evenly (by omega), Nat.cast_two]
    · rw [hbudget, counted_evenly (by omega)]
      exact_mod_cast hn
  have hfirst : evenly.IsFirstHalt evenly.index 2 := by
    refine ⟨by decide, by decide, fun m hm hm' => ?_⟩
    obtain rfl : m = 1 := Nat.le_antisymm (Nat.le_of_lt_succ hm') hm
    decide
  obtain ⟨k, report, hk, htick⟩ := exists_spendsBudget_tick hpos hsize
  obtain rfl := hk.unique hfirst
  refine ⟨hpos, hsize, hspent, report, htick, ?_⟩
  have hne : report.halt ≠ .budget := by
    rintro h
    obtain ⟨m, hm, hlt⟩ := htick.budget_iff.1 h
    exact absurd (hm.unique hspent) hlt.ne
  have hhalt : evenly.haltAt? 2 = some .programStop := by decide
  exact Option.some.inj ((htick.halted hne).symm.trans hhalt)

end Player

end Lathe
