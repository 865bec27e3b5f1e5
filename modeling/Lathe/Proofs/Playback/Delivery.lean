import Lathe.Proofs.Playback.Invariant
import Mathlib.Data.List.Induction
import Mathlib.Data.List.Nodup

/-!
# Delivery of ticks

The host may hand a tick back late, twice, after others that were armed later, or never.  Ticks are
told apart by their numbers alone, and this file shows that the numbers are enough: over every
schedule a tick runs exactly if it is awaited, and so at most once.

* `Player.arms?` : the tick that an operation newly arms, and `Player.ticksArmed` those that a
  schedule arms, oldest first.
* `Player.Awaits` : a tick is the one armed last, and nothing since has used it up or taken it
  back.  This is said of the schedule and does not look at the timer.
* `Player.armed_run_iff` : the tick that the timer keeps is the awaited one.
* `Player.Spent` : a tick that is over; no operation brings it back (`Player.Spent.after`).
* `Player.deliversOnce` : what all this comes to for a player and its host.
-/

namespace Lathe

namespace Timer

variable {t : Timer} {k : Tick}

theorem isLive_iff : t.isLive k = true ↔ ∃ a, t.armed = some a ∧ a.id = k.id := by
  unfold isLive
  cases t.armed <;> simp

@[simp] theorem cancel_armed : t.cancel.armed = none := rfl

@[simp] theorem cancel_nextId : t.cancel.nextId = t.nextId := rfl

end Timer

namespace Operation

variable {α : Type}

/-- The operation hands back a tick with the given number. -/
def handsBack (id : Nat) : Operation α → Bool
  | fire k _ => k.id = id
  | _ => false

/-- The operation pauses or rewinds playback or gives it another trace. -/
def cancels : Operation α → Bool
  | load _ | pause | reset => true
  | play _ | fire _ _ | setSpeed _ | setSingleBlock _ | setOptionalStop _ => false

/-- After the operation a tick with the given number is not to be run any more. -/
def revokes (id : Nat) (op : Operation α) : Bool :=
  op.cancels || op.handsBack id

end Operation

namespace Player

variable {α : Type} [Scalar α] {p q : Player α} {op : Operation α} {ops : List (Operation α)}
  {k : Tick}

/-! ### What a schedule arms and awaits -/

/-- The tick that an operation newly arms.  Playing while running gives the armed tick again and
arms none. -/
def arms? (p : Player α) (op : Operation α) : Option Tick :=
  if (p.ticking? op).isSome then (p.perform op).2 else none

/-- The ticks that a schedule newly arms, oldest first. -/
def ticksArmed (p : Player α) : List (Operation α) → List Tick
  | [] => []
  | op :: ops => (p.arms? op).toList ++ (p.after op).ticksArmed ops

/-- How often a schedule runs a tick by handing back one with the given number. -/
def timesRun (id : Nat) (p : Player α) : List (Operation α) → Nat
  | [] => 0
  | op :: ops =>
    (if op.handsBack id && (p.ticking? op).isSome then 1 else 0) + (p.after op).timesRun id ops

/-- A tick is the one that the schedule has armed last, and since then it has not been handed back
nor has playback been paused, rewound or given another trace. -/
def Awaits (p : Player α) (ops : List (Operation α)) (k : Tick) : Prop :=
  ∃ past op later, ops = past ++ op :: later ∧ (p.run past).arms? op = some k ∧
    (p.run (past ++ [op])).ticksArmed later = [] ∧ ∀ o ∈ later, o.revokes k.id = false

theorem run_append (ops ops' : List (Operation α)) : p.run (ops ++ ops') = (p.run ops).run ops' :=
  List.foldl_append

theorem run_concat (ops : List (Operation α)) (op : Operation α) :
    p.run (ops ++ [op]) = (p.run ops).after op :=
  run_append ops [op]

theorem ticksArmed_append (ops ops' : List (Operation α)) :
    p.ticksArmed (ops ++ ops') = p.ticksArmed ops ++ (p.run ops).ticksArmed ops' := by
  induction ops generalizing p with
  | nil => rfl
  | cons op ops ih => simp only [List.cons_append, ticksArmed, ih, List.append_assoc]; rfl

theorem ticksArmed_concat (ops : List (Operation α)) (op : Operation α) :
    p.ticksArmed (ops ++ [op]) = p.ticksArmed ops ++ ((p.run ops).arms? op).toList := by
  rw [ticksArmed_append, ticksArmed, ticksArmed, List.append_nil]

theorem not_awaits_nil : ¬ p.Awaits [] k := by
  rintro ⟨past, op, later, h, -⟩
  simp at h

/-- What is awaited after one more operation: the tick that it arms, or else the one that was
awaited before and that it does not revoke. -/
theorem awaits_concat_iff : p.Awaits (ops ++ [op]) k ↔
    (p.run ops).arms? op = some k ∨
      ((p.run ops).arms? op = none ∧ p.Awaits ops k ∧ op.revokes k.id = false) := by
  constructor
  · rintro ⟨past, o, later, hops, harm, hlast, hrev⟩
    obtain rfl | ⟨later, o', rfl⟩ := later.eq_nil_or_concat'
    · obtain ⟨rfl, hop⟩ := List.append_inj' hops rfl
      obtain rfl := List.singleton_inj.1 hop
      exact .inl harm
    · have hops' : ops ++ [op] = (past ++ o :: later) ++ [o'] := by simpa using hops
      obtain ⟨rfl, hop⟩ := List.append_inj' hops' rfl
      obtain rfl := List.singleton_inj.1 hop
      rw [ticksArmed_concat, List.append_eq_nil_iff, ← run_append] at hlast
      obtain ⟨hlast, hnone⟩ := hlast
      refine .inr ⟨?_, ⟨past, o, later, rfl, harm, hlast, ?_⟩, hrev op (by simp)⟩
      · simpa using hnone
      · exact fun o ho => hrev o (by simp [ho])
  · rintro (harm | ⟨hnone, ⟨past, o, later, rfl, harm, hlast, hrev⟩, hop⟩)
    · exact ⟨ops, op, [], rfl, harm, rfl, by simp⟩
    · refine ⟨past, o, later ++ [op], by simp, harm, ?_, ?_⟩
      · rw [ticksArmed_concat, hlast, ← run_append]
        simpa using hnone
      · intro o' ho'
        obtain ho' | rfl := by simpa using ho'
        · exact hrev o' ho'
        · exact hop

/-! ### What one operation does to the timer -/

theorem arms?_of_ticking?_eq_none (hn : p.ticking? op = none) : p.arms? op = none := by
  simp [arms?, hn]

/-- An operation that runs a tick arms the next one if the tick ends on its budget, and otherwise
leaves none armed. -/
theorem timer_after_of_ticking?_eq_some (hq : p.ticking? op = some q) :
    (∃ now, p.arms? op = some (q.timer.nextTick now) ∧ (p.after op).timer = q.timer.arm now) ∨
      (p.arms? op = none ∧ (p.after op).timer = q.timer.cancel) := by
  obtain ⟨now, hperf⟩ := perform_of_ticking?_eq_some hq
  have hphase := (ticking_of_ticking?_eq_some hq).phase
  have harms : p.arms? op = (q.tick.armIfPlaying now).2 := by simp [arms?, hq, hperf]
  have hafter : p.after op = (q.tick.armIfPlaying now).1 := by rw [after, hperf]
  by_cases hb : q.advanced.2.halt = .budget
  · obtain ⟨hph, -, hti⟩ := tick_of_budget hb
    rw [armIfPlaying_of_playing (hph.trans hphase), hti] at harms hafter
    exact .inl ⟨now, harms, by rw [hafter]⟩
  · obtain ⟨⟨phase, mode⟩, hrest⟩ : ∃ rest, q.advanced.2.halt.rest? = some rest :=
      Option.ne_none_iff_exists'.1 (mt Halt.rest?_eq_none_iff.1 hb)
    obtain ⟨hph, -, hti⟩ := tick_of_rest hrest
    have hne : q.tick.phase ≠ .playing := by
      rw [hph]; rcases (Halt.rest?_spec hrest).2 with ⟨rfl, -⟩ | ⟨rfl, -⟩ <;> simp
    rw [armIfPlaying_of_ne hne] at harms hafter
    exact .inr ⟨harms, by rw [hafter, hti]⟩

omit [Scalar α] in
theorem ticking?_fire_isSome_iff {now : Nat} : (p.ticking? (.fire k now)).isSome = true ↔
    p.timer.isLive k = true ∧ p.phase = .playing := by
  simp only [ticking?]
  split_ifs with h <;> simp [h]

omit [Scalar α] in
/-- Handing back a number runs a tick if the armed tick has that number. -/
theorem Sound.isSome_iff_of_handsBack (h : p.Sound) {id : Nat} (hop : op.handsBack id = true) :
    (p.ticking? op).isSome = true ↔ ∃ a, p.timer.armed = some a ∧ a.id = id := by
  cases op with
  | fire j now =>
    obtain rfl : j.id = id := by simpa [Operation.handsBack] using hop
    rw [ticking?_fire_isSome_iff, Timer.isLive_iff, and_iff_left_iff_imp]
    rintro ⟨a, ha, -⟩
    exact h.armed_iff.1 (by simp [ha])
  | _ => cases hop

/-- An operation that runs no tick leaves the timer or cancels the armed tick. -/
theorem Sound.timer_after_of_ticking?_eq_none (h : p.Sound) (hn : p.ticking? op = none) :
    (p.after op).timer = if op.cancels then p.timer.cancel else p.timer := by
  cases op with
  | play now => rw [after_play_of_ticking?_eq_none hn]; rfl
  | fire j now => rw [h.after_fire_of_ticking?_eq_none hn]; rfl
  | pause => change p.pause.timer = p.timer.cancel; unfold Player.pause; split_ifs <;> rfl
  | setSpeed speed =>
    change (p.after (.setSpeed speed)).timer = p.timer
    rw [after_setSpeed]
    split_ifs <;> rfl
  | _ => rfl

/-- The number of an armed tick is the next one, and arming uses it up. -/
theorem Sound.nextId_after (h : p.Sound) (op : Operation α) :
    (p.arms? op = none ∧ (p.after op).timer.nextId = p.timer.nextId) ∨
      (∃ k, p.arms? op = some k ∧ k.id = p.timer.nextId ∧
        (p.after op).timer.nextId = p.timer.nextId + 1) := by
  cases hq : p.ticking? op with
  | none =>
    refine .inl ⟨arms?_of_ticking?_eq_none hq, ?_⟩
    rw [h.timer_after_of_ticking?_eq_none hq]
    split_ifs <;> rfl
  | some q =>
    have hid : q.timer.nextId = p.timer.nextId := by
      cases op with
      | play now => simp only [ticking?] at hq; split_ifs at hq; cases hq; rfl
      | fire j now => simp only [ticking?] at hq; split_ifs at hq; cases hq; rfl
      | _ => cases hq
    obtain ⟨now, harm, hti⟩ | ⟨hnone, hti⟩ := timer_after_of_ticking?_eq_some hq
    · exact .inr ⟨_, harm, hid, by rw [hti, ← hid]; rfl⟩
    · exact .inl ⟨hnone, by rw [hti, ← hid]; rfl⟩

omit [Scalar α] in
/-- An operation that runs a tick revokes the tick that was armed, if there was one. -/
theorem Sound.revokes_of_ticking?_eq_some (h : p.Sound) (hq : p.ticking? op = some q)
    (hk : p.timer.armed = some k) : op.revokes k.id = true := by
  have hp : p.phase = .playing := h.armed_iff.1 (by simp [hk])
  cases op with
  | play now => exact absurd hp (not_playing_of_ticking?_play hq)
  | fire j now =>
    have hop : (Operation.fire j now : Operation α).handsBack j.id = true := by
      simp [Operation.handsBack]
    obtain ⟨a, ha, hid⟩ := (h.isSome_iff_of_handsBack hop).1 (Option.isSome_of_eq_some hq)
    obtain rfl := Option.some.inj (ha.symm.trans hk)
    simp [Operation.revokes, Operation.handsBack, hid]
  | _ => cases hq

omit [Scalar α] in
/-- An operation that runs no tick revokes the armed tick only by cancelling it: handing it back
would have run it. -/
theorem Sound.revokes_of_ticking?_eq_none (h : p.Sound) (hn : p.ticking? op = none)
    (hk : p.timer.armed = some k) : op.revokes k.id = op.cancels := by
  have hback : op.handsBack k.id = false := by
    rw [Bool.eq_false_iff]
    intro hop
    have hq := (h.isSome_iff_of_handsBack hop).2 ⟨k, hk, rfl⟩
    rw [hn] at hq
    cases hq
  simp [Operation.revokes, hback]

/-- The armed tick after an operation: the one that it arms, or else the one armed before unless
the operation revokes it. -/
theorem Sound.armed_after_iff (h : p.Sound) : (p.after op).timer.armed = some k ↔
    p.arms? op = some k ∨
      (p.arms? op = none ∧ p.timer.armed = some k ∧ op.revokes k.id = false) := by
  cases hq : p.ticking? op with
  | none =>
    rw [h.timer_after_of_ticking?_eq_none hq, arms?_of_ticking?_eq_none hq]
    simp only [reduceCtorEq, false_or, true_and]
    constructor
    · intro hk
      split_ifs at hk with hc
      · cases hk
      · exact ⟨hk, by simpa [h.revokes_of_ticking?_eq_none hq hk] using hc⟩
    · rintro ⟨hk, hrev⟩
      rw [h.revokes_of_ticking?_eq_none hq hk] at hrev
      rw [if_neg (by simp [hrev]), hk]
  | some q =>
    obtain ⟨now, harm, hti⟩ | ⟨hnone, hti⟩ := timer_after_of_ticking?_eq_some hq
    · simp [harm, hti, Timer.arm]
    · simp only [hnone, hti, Timer.cancel_armed, reduceCtorEq, false_or, true_and, false_iff]
      rintro ⟨hk, hrev⟩
      rw [h.revokes_of_ticking?_eq_some hq hk] at hrev
      cases hrev

/-! ### Whole schedules -/

theorem Sound.run (h : p.Sound) (ops : List (Operation α)) : (p.run ops).Sound := by
  induction ops generalizing p with
  | nil => exact h
  | cons op ops ih => exact ih (h.after op)

/-- **The tick that the timer keeps is the awaited one.** -/
theorem armed_run_iff (h : p.Sound) (hnew : p.timer.armed = none) :
    (p.run ops).timer.armed = some k ↔ p.Awaits ops k := by
  induction ops using List.reverseRecOn with
  | nil =>
    refine iff_of_false ?_ not_awaits_nil
    change ¬ p.timer.armed = some k
    simp [hnew]
  | append_singleton ops op ih =>
    rw [run_concat, (h.run ops).armed_after_iff, ih, awaits_concat_iff]

/-- Ticks are numbered one after another. -/
theorem map_id_ticksArmed (h : p.Sound) : (p.ticksArmed ops).map Tick.id =
    List.range' p.timer.nextId (p.ticksArmed ops).length := by
  induction ops generalizing p with
  | nil => rfl
  | cons op ops ih =>
    rw [ticksArmed]
    obtain ⟨hnone, hid⟩ | ⟨k, harm, hk, hid⟩ := h.nextId_after op
    · rw [hnone, Option.toList_none, List.nil_append, ih (h.after op), hid]
    · rw [harm, List.length_append, List.map_append, ih (h.after op), hid]
      simp [Nat.add_comm 1, List.range'_succ, hk]

/-- A tick that the schedule awaits is one of those that it has armed. -/
theorem Awaits.mem_ticksArmed (h : p.Awaits ops k) : k ∈ p.ticksArmed ops := by
  obtain ⟨past, op, later, rfl, harm, -⟩ := h
  rw [ticksArmed_append, ticksArmed, harm]
  simp

/-- **A tick that is handed back runs exactly if it is awaited.** -/
theorem Sound.fire_isSome_iff_awaits (h : p.Sound) (hnew : p.timer.armed = none) {now : Nat}
    (hk : k ∈ p.ticksArmed ops) :
    ((p.run ops).ticking? (.fire k now)).isSome = true ↔ p.Awaits ops k := by
  have hop : (Operation.fire k now : Operation α).handsBack k.id = true := by
    simp [Operation.handsBack]
  rw [(h.run ops).isSome_iff_of_handsBack hop]
  constructor
  · rintro ⟨a, ha, hid⟩
    rw [armed_run_iff h hnew] at ha
    -- no two ticks have one number, so the armed one is the one handed back
    have hnodup : ((p.ticksArmed ops).map Tick.id).Nodup := by
      rw [map_id_ticksArmed h]; exact List.nodup_range'
    rwa [← List.inj_on_of_nodup_map hnodup ha.mem_ticksArmed hk hid]
  · intro ha
    exact ⟨k, (armed_run_iff h hnew).2 ha, rfl⟩

/-! ### Ticks that are over -/

/-- The armed tick has a number that was given out. -/
def Numbered (p : Player α) : Prop := ∀ k, p.timer.armed = some k → k.id < p.timer.nextId

/-- A tick with the given number has been given out and is over. -/
structure Spent (p : Player α) (id : Nat) : Prop where
  /-- The number was given out. -/
  lt : id < p.timer.nextId
  /-- The armed tick is another one. -/
  ne : ∀ k, p.timer.armed = some k → k.id ≠ id

theorem Sound.nextId_le_after (h : p.Sound) (op : Operation α) :
    p.timer.nextId ≤ (p.after op).timer.nextId := by
  obtain ⟨-, hid⟩ | ⟨k, -, -, hid⟩ := h.nextId_after op <;> omega

/-- The armed tick after an operation is new or was armed before and is not revoked. -/
theorem Sound.of_armed_after (h : p.Sound) (hk : (p.after op).timer.armed = some k) :
    (k.id = p.timer.nextId ∧ (p.after op).timer.nextId = p.timer.nextId + 1) ∨
      (p.timer.armed = some k ∧ op.revokes k.id = false) := by
  obtain harm | ⟨-, hk⟩ := h.armed_after_iff.1 hk
  · obtain ⟨hnone, -⟩ | ⟨j, hj, hid, hnext⟩ := h.nextId_after op
    · rw [hnone] at harm; cases harm
    · obtain rfl := Option.some.inj (harm.symm.trans hj)
      exact .inl ⟨hid, hnext⟩
  · exact .inr hk

theorem Numbered.after (hn : p.Numbered) (h : p.Sound) (op : Operation α) :
    (p.after op).Numbered := by
  intro k hk
  obtain ⟨hid, hnext⟩ | ⟨hk, -⟩ := h.of_armed_after hk
  · omega
  · exact Nat.lt_of_lt_of_le (hn k hk) (h.nextId_le_after op)

/-- No operation brings a tick back that is over. -/
theorem Spent.after {id : Nat} (hs : p.Spent id) (h : p.Sound) (op : Operation α) :
    (p.after op).Spent id := by
  refine ⟨Nat.lt_of_lt_of_le hs.lt (h.nextId_le_after op), fun k hk => ?_⟩
  obtain ⟨hid, -⟩ | ⟨hk, -⟩ := h.of_armed_after hk
  · have := hs.lt
    omega
  · exact hs.ne k hk

/-- A tick that has been run is over. -/
theorem Sound.spent_after (h : p.Sound) (hn : p.Numbered) {id : Nat}
    (hop : op.handsBack id = true) (hq : (p.ticking? op).isSome = true) :
    (p.after op).Spent id := by
  obtain ⟨a, ha, rfl⟩ := (h.isSome_iff_of_handsBack hop).1 hq
  have hlt := hn a ha
  refine ⟨Nat.lt_of_lt_of_le hlt (h.nextId_le_after op), fun k hk => ?_⟩
  obtain ⟨hnew, -⟩ | ⟨-, hrev⟩ := h.of_armed_after hk
  · omega
  · intro hid
    rw [hid, Operation.revokes, hop, Bool.or_true] at hrev
    cases hrev

/-- A tick that is over never runs again. -/
theorem Spent.timesRun_eq_zero {id : Nat} (hs : p.Spent id) (h : p.Sound) :
    p.timesRun id ops = 0 := by
  induction ops generalizing p with
  | nil => rfl
  | cons op ops ih =>
    have hnot : ¬ (op.handsBack id && (p.ticking? op).isSome) = true := by
      rw [Bool.and_eq_true]
      rintro ⟨hop, hq⟩
      obtain ⟨a, ha, hid⟩ := (h.isSome_iff_of_handsBack hop).1 hq
      exact hs.ne a ha hid
    rw [timesRun, if_neg hnot, ih (hs.after h op) (h.after op)]

/-- A tick runs at most once. -/
theorem Sound.timesRun_le_one (h : p.Sound) (hn : p.Numbered) (id : Nat) :
    p.timesRun id ops ≤ 1 := by
  induction ops generalizing p with
  | nil => exact Nat.zero_le 1
  | cons op ops ih =>
    rw [timesRun]
    split_ifs with hrun
    · obtain ⟨hop, hq⟩ := Bool.and_eq_true_iff.1 hrun
      rw [(h.spent_after hn hop hq).timesRun_eq_zero (h.after op)]
    · rw [Nat.zero_add]
      exact ih (h.after op) (hn.after h op)

/-! ### The player and its host -/

/-- What a host can count on that has driven player `p` by the schedule `ops` and hands ticks back
as it likes. -/
structure DeliversOnce (p : Player α) (ops : List (Operation α)) : Prop where
  /-- Ticks are numbered from one on, so their numbers stay as small as there are ticks. -/
  numbered : (p.ticksArmed ops).map Tick.id = List.range' 1 (p.ticksArmed ops).length
  /-- A tick that is armed later has the larger number. -/
  increasing : (p.ticksArmed ops).Pairwise fun a b => a.id < b.id
  /-- A tick that is handed back runs exactly if it is awaited. -/
  runs_iff : ∀ k ∈ p.ticksArmed ops, ∀ now,
    ((p.run ops).ticking? (.fire k now)).isSome = true ↔ p.Awaits ops k
  /-- It then runs with no tick armed, and the next one is armed if playback goes on. -/
  runs : ∀ k now q, (p.run ops).ticking? (.fire k now) = some q →
    q = { p.run ops with timer := (p.run ops).timer.cancel } ∧
      (p.run ops).perform (.fire k now) = q.tick.armIfPlaying now
  /-- No tick runs twice. -/
  once : ∀ id, p.timesRun id ops ≤ 1
  /-- A tick that does not run leaves the player as it was and gives no other tick. -/
  ignored : ∀ k now, (p.run ops).ticking? (.fire k now) = none →
    (p.run ops).perform (.fire k now) = (p.run ops, none)

theorem perform_fire_of_ticking?_eq_some {now : Nat} (hq : p.ticking? (.fire k now) = some q) :
    q = { p with timer := p.timer.cancel } ∧
      p.perform (.fire k now) = q.tick.armIfPlaying now := by
  simp only [ticking?] at hq
  split_ifs at hq with hk
  cases hq
  exact ⟨rfl, by rw [perform, fire, if_pos hk.1, if_pos hk.2]⟩

/-- **No tick is lost and none runs twice.**  However the host plays, pauses, rewinds, loads and
changes settings, and in whatever order, how late and how often it hands ticks back: ticks are
numbered in the order in which they are armed; one that is handed back runs exactly if it was armed
last and has neither been handed back nor taken back since; it runs at most once; and where none
runs nothing changes. -/
theorem deliversOnce (baseStep : α) (interval : Nat) (speed : α) (singleBlock optionalStop : Bool)
    (ops : List (Operation α)) :
    (Player.new baseStep interval speed singleBlock optionalStop).DeliversOnce ops := by
  have h := sound_new baseStep interval speed singleBlock optionalStop
  have hnumbered : (ticksArmed _ ops).map Tick.id = List.range' 1 (ticksArmed _ ops).length :=
    map_id_ticksArmed h
  have hfresh : (Player.new baseStep interval speed singleBlock optionalStop).Numbered := by
    intro k hk
    cases hk
  refine ⟨hnumbered, ?_, ?_, ?_, h.timesRun_le_one hfresh, ?_⟩
  · rw [← List.pairwise_map (f := Tick.id) (R := (· < ·)), hnumbered]
    exact List.pairwise_lt_range'
  · intro k hk now
    exact h.fire_isSome_iff_awaits rfl hk
  · intro k now q hq
    exact perform_fire_of_ticking?_eq_some hq
  · intro k now hn
    exact (h.run ops).perform_fire_of_ticking?_eq_none hn

end Player

end Lathe
