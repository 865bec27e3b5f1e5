import Lathe.Playback.Player
import Mathlib.Data.Nat.Find
import Mathlib.Tactic.SplitIfs

/-!
# What one tick does

A tick walks from point to point until its budget is used up or a point halts playback.  This
file says once what such a walk can come to; what is said about playback elsewhere follows from
it and does not open the walk again.

* `Player.Passage i j halt` : a walk from point `i` may end at point `j` for the reason `halt`.
* `Player.advance_passage` : every walk is such a passage.
* `Player.SameCourse` : two players that play one trace under the same flags, so that they halt at
  the same points.
* `Player.IsFirstHalt i k` : point `k` is the first one after `i` that halts playback.
  `Player.advanced_of_isFirstHalt` says how ticks approach it, and `Player.tick_of_budget` and
  `Player.tick_of_rest` what they leave on the way and there.
-/

namespace Lathe

theorem Halt.rest?_eq_none_iff {halt : Halt} : halt.rest? = none ↔ halt = .budget := by
  cases halt <;> simp [Halt.rest?]

namespace Player

variable {α : Type} {p q r : Player α}

/-! ### The course of playback -/

/-- The block of a point; zero where there is none. -/
def blockAt (p : Player α) (i : Nat) : Nat := ((p.trace.get? i).map Point.block).getD 0

/-- Two players that play the same trace under the same flags. -/
structure SameCourse (p q : Player α) : Prop where
  /-- The trace is the same. -/
  trace : p.trace = q.trace
  /-- Single-block mode is the same. -/
  singleBlock : p.singleBlock = q.singleBlock
  /-- Optional stops are the same. -/
  optionalStop : p.optionalStop = q.optionalStop

namespace SameCourse

@[refl] theorem refl (p : Player α) : SameCourse p p := ⟨rfl, rfl, rfl⟩

@[symm] theorem symm (h : SameCourse p q) : SameCourse q p :=
  ⟨h.trace.symm, h.singleBlock.symm, h.optionalStop.symm⟩

theorem trans (h : SameCourse p q) (h' : SameCourse q r) : SameCourse p r :=
  ⟨h.trace.trans h'.trace, h.singleBlock.trans h'.singleBlock,
    h.optionalStop.trans h'.optionalStop⟩

theorem haltAt? (h : SameCourse p q) (i : Nat) : p.haltAt? i = q.haltAt? i := by
  simp only [Player.haltAt?, Player.blockHalt?, h.trace, h.singleBlock, h.optionalStop]

theorem isParked (h : SameCourse p q) (i : Nat) : p.isParked i = q.isParked i := by
  simp only [Player.isParked, h.trace, h.optionalStop]

theorem blockAt (h : SameCourse p q) (i : Nat) : p.blockAt i = q.blockAt i := by
  simp only [Player.blockAt, h.trace]

end SameCourse

/-- Blocks end neither with the budget nor with the trace. -/
theorem blockHalt?_ne {stop : Option Stop} {halt : Halt}
    (h : halt = .budget ∨ halt = .endOfTrace) : p.blockHalt? stop ≠ some halt := by
  unfold blockHalt?
  rcases h with rfl | rfl <;> rcases stop with _ | (_ | _ | _) <;>
    cases p.optionalStop <;> cases p.singleBlock <;> simp

theorem haltAt?_of_size_le {i : Nat} (h : p.trace.size ≤ i + 1) :
    p.haltAt? i = some .endOfTrace := by
  rw [haltAt?, if_pos h]

theorem size_le_of_haltAt?_eq {i : Nat} (h : p.haltAt? i = some .endOfTrace) :
    p.trace.size ≤ i + 1 := by
  unfold haltAt? at h
  split_ifs at h with hs hb
  · exact hs
  · exact absurd h (blockHalt?_ne (.inr rfl))

theorem lt_size_of_haltAt?_ne {i : Nat} (h : p.haltAt? i ≠ some .endOfTrace) :
    i + 1 < p.trace.size := by
  by_contra hi
  exact h (haltAt?_of_size_le (by omega))

theorem lt_size_of_haltAt?_eq_none {i : Nat} (h : p.haltAt? i = none) :
    i + 1 < p.trace.size :=
  lt_size_of_haltAt?_ne (by rw [h]; simp)

/-- Only the end of the program ends playback before the last point. -/
theorem of_haltAt?_eq_programEnd {i : Nat} (h : p.haltAt? i = some .programEnd) :
    p.trace.endsBlock i = true ∧ (p.trace.get? i).bind Point.stop? = some .finish := by
  unfold haltAt? at h
  split_ifs at h with hs hb
  · cases h
  · refine ⟨hb, ?_⟩
    revert h
    unfold blockHalt?
    rcases (p.trace.get? i).bind Point.stop? with _ | (_ | _ | _) <;>
      cases p.optionalStop <;> cases p.singleBlock <;> simp

theorem haltAt?_ne_budget (i : Nat) : p.haltAt? i ≠ some .budget := by
  unfold haltAt?
  split_ifs
  · simp
  · exact blockHalt?_ne (.inl rfl)
  · simp

/-- A point that playback steps off when it resumes is one that had halted it. -/
theorem haltAt?_ne_none_of_isParked {i : Nat} (h : p.isParked i = true) : p.haltAt? i ≠ none := by
  simp only [isParked, Bool.and_eq_true] at h
  obtain ⟨hb, hs⟩ := h
  unfold haltAt?
  split_ifs
  · simp
  · revert hs
    rcases (p.trace.get? i).bind Point.stop? with _ | (_ | _ | _) <;> simp_all [blockHalt?]

/-! ### The first halt -/

/-- Point `k` is the first one after point `i` that halts playback. -/
structure IsFirstHalt (p : Player α) (i k : Nat) : Prop where
  /-- It comes after `i`. -/
  lt : i < k
  /-- It halts playback. -/
  halts : p.haltAt? k ≠ none
  /-- No point before it does. -/
  clear : ∀ m, i < m → m < k → p.haltAt? m = none

namespace IsFirstHalt

variable {i j k l : Nat}

theorem congr (h : SameCourse p q) (hk : p.IsFirstHalt i k) : q.IsFirstHalt i k :=
  ⟨hk.lt, h.haltAt? k ▸ hk.halts, fun m hi hm => h.haltAt? m ▸ hk.clear m hi hm⟩

theorem unique (hk : p.IsFirstHalt i k) (hl : p.IsFirstHalt i l) : k = l := by
  rcases lt_trichotomy k l with h | h | h
  · exact absurd (hl.clear k hk.lt h) hk.halts
  · exact h
  · exact absurd (hk.clear l hl.lt h) hl.halts

/-- A point on the way has the same first halt ahead. -/
theorem from_later (hk : p.IsFirstHalt i k) (hij : i ≤ j) (hjk : j < k) : p.IsFirstHalt j k :=
  ⟨hjk, hk.halts, fun m hj hm => hk.clear m (by omega) hm⟩

/-- The last point halts, so the first halt is in the trace. -/
theorem lt_size (hk : p.IsFirstHalt i k) (hi : i + 1 < p.trace.size) : k < p.trace.size := by
  by_contra hlt
  have hlast := hk.clear (p.trace.size - 1) (by omega) (by omega)
  have := lt_size_of_haltAt?_eq_none hlast
  omega

end IsFirstHalt

/-- There is a halt ahead of every point but the last. -/
theorem exists_isFirstHalt {i : Nat} (hi : i + 1 < p.trace.size) : ∃ k, p.IsFirstHalt i k := by
  have hex : ∃ k, i < k ∧ p.haltAt? k ≠ none :=
    ⟨p.trace.size - 1, by omega, by rw [haltAt?_of_size_le (by omega)]; simp⟩
  classical
  refine ⟨Nat.find hex, (Nat.find_spec hex).1, (Nat.find_spec hex).2, fun m him hm => ?_⟩
  by_contra hne
  exact Nat.find_min hex hm ⟨him, hne⟩

/-! ### The walk of a tick -/

/-- What a walk from point `i` to point `j` that ended for the reason `halt` looks like. -/
structure Passage (p : Player α) (i j : Nat) (halt : Halt) : Prop where
  /-- It does not go back. -/
  le : i ≤ j
  /-- It does not pass over a halt. -/
  clear : ∀ k, i < k → k < j → p.haltAt? k = none
  /-- It ends on a halt unless the budget is used up. -/
  halted : halt ≠ .budget → i < j ∧ p.haltAt? j = some halt
  /-- If it is, there is no halt where it ends. -/
  unhalted : halt = .budget → i < j → p.haltAt? j = none

variable [Scalar α] {budget distance : α} {i steps : Nat}

theorem advance_passage :
    p.Passage i (p.advance budget i steps distance).1
      (p.advance budget i steps distance).2.halt := by
  fun_induction p.advance budget i steps distance with
  | case1 i steps _ _ _ halt hh =>
    exact ⟨by omega, fun k hi hk => absurd hk (by omega), fun _ => ⟨by omega, hh⟩,
      fun hb => absurd (hh.trans (congrArg some hb)) (haltAt?_ne_budget _)⟩
  | case2 i steps _ _ distance hnone ih =>
    refine ⟨by have := ih.le; omega, fun k hi hk => ?_, fun hb => ?_, fun hb _ => ?_⟩
    · obtain rfl | hk' : k = i + 1 ∨ i + 1 < k := by omega
      · exact hnone
      · exact ih.clear k hk' hk
    · obtain ⟨hlt, hh⟩ := ih.halted hb
      exact ⟨by omega, hh⟩
    · obtain heq | hlt := Nat.eq_or_lt_of_le ih.le
      · rw [← heq]; exact hnone
      · exact ih.unhalted hb hlt
  | case3 i steps _ _ =>
    exact ⟨le_rfl, fun k hi hk => absurd hk (by omega), fun hb => absurd rfl hb,
      fun _ hlt => absurd hlt (by omega)⟩

theorem advance_of_not_lt (hd : ¬ distance < budget) :
    p.advance budget i steps distance = (i, ⟨steps, distance, .budget⟩) := by
  rw [advance, if_neg fun h => hd h.1]

/-- A walk with budget left moves. -/
theorem lt_advance (hd : distance < budget) (hi : i + 1 < p.trace.size) :
    i < (p.advance budget i steps distance).1 := by
  rw [advance, if_pos ⟨hd, hi⟩]
  dsimp only
  split
  · exact Nat.lt_succ_self i
  · exact advance_passage.le

theorem advance_lt_size (hi : i < p.trace.size) :
    (p.advance budget i steps distance).1 < p.trace.size := by
  fun_induction p.advance budget i steps distance with
  | case1 i steps _ h => exact h.2
  | case2 i steps _ h _ _ ih => exact ih h.2
  | case3 => exact hi

theorem SameCourse.stepLength (h : SameCourse p q) (i : Nat) :
    p.stepLength i = q.stepLength i := by
  simp only [Player.stepLength, h.trace]

/-- Walks depend on the trace and the flags only. -/
theorem SameCourse.advance (h : SameCourse p q) :
    p.advance budget i steps distance = q.advance budget i steps distance := by
  fun_induction p.advance budget i steps distance with
  | case1 i steps _ hlt _ halt hh =>
    rw [h.trace] at hlt
    rw [h.haltAt?] at hh
    rw [Player.advance, if_pos hlt, hh, ← h.stepLength]
  | case2 i steps _ hlt _ hnone ih =>
    rw [h.trace] at hlt
    rw [h.haltAt?] at hnone
    rw [Player.advance.eq_def q, if_pos hlt, hnone, ← h.stepLength, ih]
  | case3 i steps _ hnot =>
    rw [h.trace] at hnot
    rw [Player.advance, if_neg hnot]

/-! ### Where a tick goes -/

theorem advanced_of_lt (hi : p.index + 1 < p.trace.size) :
    p.advanced = p.advance p.budget p.index 0 0.0 := by
  rw [advanced, if_pos hi]

theorem advanced_of_size_le (hi : p.trace.size ≤ p.index + 1) :
    p.advanced = (p.index, ⟨0, 0.0, .endOfTrace⟩) := by
  rw [advanced, if_neg (by omega)]

theorem index_le_advanced : p.index ≤ p.advanced.1 := by
  by_cases hi : p.index + 1 < p.trace.size
  · rw [advanced_of_lt hi]; exact advance_passage.le
  · rw [advanced_of_size_le (by omega)]

theorem advanced_lt_size (hi : p.index < p.trace.size) : p.advanced.1 < p.trace.size := by
  by_cases hlt : p.index + 1 < p.trace.size
  · rw [advanced_of_lt hlt]; exact advance_lt_size hi
  · rw [advanced_of_size_le (by omega)]; exact hi

/-- A tick does not pass over a halt. -/
theorem haltAt?_of_lt_advanced {k : Nat} (hk : p.index < k) (hka : k < p.advanced.1) :
    p.haltAt? k = none := by
  by_cases hi : p.index + 1 < p.trace.size
  · rw [advanced_of_lt hi] at hka; exact advance_passage.clear k hk hka
  · rw [advanced_of_size_le (by omega)] at hka; exact absurd hka (by simp only; omega)

/-- A tick that does not end on its budget ends on a halt. -/
theorem haltAt?_advanced (h : p.advanced.2.halt ≠ .budget) :
    p.haltAt? p.advanced.1 = some p.advanced.2.halt := by
  by_cases hi : p.index + 1 < p.trace.size
  · rw [advanced_of_lt hi] at h ⊢; exact (advance_passage.halted h).2
  · rw [advanced_of_size_le (by omega)]; exact haltAt?_of_size_le (by simp only; omega)

/-- A tick that ends on its budget does not reach the last point. -/
theorem advanced_lt_of_budget (h : p.advanced.2.halt = .budget) :
    p.advanced.1 + 1 < p.trace.size := by
  have hi : p.index + 1 < p.trace.size := by
    by_contra hi
    rw [advanced_of_size_le (by omega)] at h
    cases h
  have hle := index_le_advanced (p := p)
  rw [advanced_of_lt hi] at h hle ⊢
  obtain heq | hlt := Nat.eq_or_lt_of_le hle
  · rwa [← heq]
  · exact lt_size_of_haltAt?_eq_none (advance_passage.unhalted h hlt)

theorem index_lt_advanced (hb : 0.0 < p.budget) (hi : p.index + 1 < p.trace.size) :
    p.index < p.advanced.1 := by
  rw [advanced_of_lt hi]; exact lt_advance hb hi

theorem advanced_eq_index (hb : ¬ 0.0 < p.budget) : p.advanced.1 = p.index := by
  by_cases hi : p.index + 1 < p.trace.size
  · rw [advanced_of_lt hi, advance_of_not_lt hb]
  · rw [advanced_of_size_le (by omega)]

/-- A tick with a budget above zero either uses it up before the first halt or ends there. -/
theorem advanced_of_isFirstHalt {k : Nat} (hk : p.IsFirstHalt p.index k) (hb : 0.0 < p.budget)
    (hi : p.index + 1 < p.trace.size) :
    (p.advanced.2.halt = .budget ∧ p.index < p.advanced.1 ∧ p.advanced.1 < k ∧
        p.haltAt? p.advanced.1 = none) ∨
      (p.advanced.2.halt ≠ .budget ∧ p.advanced.1 = k) := by
  have hlt := index_lt_advanced hb hi
  by_cases h : p.advanced.2.halt = .budget
  · have hnone : p.haltAt? p.advanced.1 = none := by
      rw [advanced_of_lt hi] at h hlt ⊢; exact advance_passage.unhalted h hlt
    refine .inl ⟨h, hlt, ?_, hnone⟩
    rcases lt_trichotomy p.advanced.1 k with hk' | hk' | hk'
    · exact hk'
    · exact absurd (hk' ▸ hnone) hk.halts
    · exact absurd (haltAt?_of_lt_advanced hk.lt hk') hk.halts
  -- a tick that halts does so on the first halt, as it passes over none
  · refine .inr ⟨h, IsFirstHalt.unique ⟨hlt, ?_, fun m => haltAt?_of_lt_advanced⟩ hk⟩
    rw [haltAt?_advanced h]; simp

/-! ### What a tick leaves -/

section

variable (i : Nat) (report : Report α)

omit [Scalar α]

@[simp] theorem arrive_index : (p.arrive i report).index = i := by
  unfold arrive; dsimp only; split <;> rfl

@[simp] theorem arrive_lastTick : (p.arrive i report).lastTick = some report := by
  unfold arrive; dsimp only; split <;> rfl

theorem arrive_sameCourse : SameCourse (p.arrive i report) p := by
  unfold arrive; dsimp only; split <;> exact ⟨rfl, rfl, rfl⟩

theorem arrive_lastBlock : (p.arrive i report).lastBlock =
    if i = p.index then p.lastBlock else p.blockAt i := by
  unfold arrive; dsimp only; split <;> rfl

end

@[simp] theorem tick_index : p.tick.index = p.advanced.1 := arrive_index _ _

@[simp] theorem tick_lastTick : p.tick.lastTick = some p.advanced.2 := arrive_lastTick _ _

theorem tick_sameCourse : SameCourse p.tick p := arrive_sameCourse _ _

theorem tick_lastBlock : p.tick.lastBlock =
    if p.advanced.1 = p.index then p.lastBlock else p.blockAt p.advanced.1 :=
  arrive_lastBlock _ _

/-- A tick that ends on its budget leaves playback running. -/
theorem tick_of_budget (h : p.advanced.2.halt = .budget) :
    p.tick.phase = p.phase ∧ p.tick.mode = p.mode ∧ p.tick.timer = p.timer := by
  simp [tick, arrive, h, Halt.rest?]

/-- A tick that ends on a halt leaves playback at rest, with no tick armed. -/
theorem tick_of_rest {phase : Phase} {mode : Mode}
    (h : p.advanced.2.halt.rest? = some (phase, mode)) :
    p.tick.phase = phase ∧ p.tick.mode = mode ∧ p.tick.timer = p.timer.cancel := by
  simp [tick, arrive, h]

end Player

end Lathe
