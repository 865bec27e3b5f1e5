import Lathe.Proofs.Motion.Divisions
import Lathe.Proofs.Motion.FinishingBlocks
import Lathe.Proofs.Motion.PassPlan

/-!
# The block counter

The block number of the walk goes up by one for each block: one for every line with words, and more
for the lines that call cycles.  `Walk.State.blocksOn` says how many blocks a line takes, and
`Walk.counts_eq_range'` that the counter goes from one to their total (`Walk.blockTotal`) without a
gap.  So a counter of limited width is enough exactly if the total is in its range
(`Walk.counts_le_iff`).

Lines alone take no more blocks than the program is long, but a roughing cycle takes one for each of
its passes, and the number of passes is only limited by `Roughing.passLimit`.

Where the total is in range, each cycle is expanded with its blocks counted as it is without
(`Walk.Visit.counted?_of_counts_le`).
-/

namespace Lathe

namespace Walk

variable {α : Type} [Scalar α] {t : Tuning α} {p : Program α} {s : State α} {index limit : ℕ}
  {l : Line α}

/-! ### Lines -/

/-- How many blocks a roughing cycle takes: one for each pass, one for the outline and one for the
return.  A contour with fewer than two points gives none. -/
def roughBlocks (t : Tuning α) (m : Modal α) (l : Line α) : List (ContourPoint α) → ℕ
  | a :: b :: rest => (roughing t m l).passCount (a :: b :: rest) + 2
  | _ => 0

/-- How many blocks a finishing cycle takes: one for each line of its contour, and one for the
return. -/
def finishBlocks : List (ContourPoint α) → ℕ
  | [] => 0
  | contour => (contour.map fun q => q.line).dedup.length + 1

/-- How many blocks a cycle takes that a line calls, if it calls one. -/
def cycleBlocks (t : Tuning α) (p : Program α) (m : Modal α) (l : Line α) : ℕ :=
  match l.action with
  | .rough => ((contour? t p l).map (roughBlocks t m l)).getD 0
  | .finish => ((contour? t p l).map finishBlocks).getD 0
  | _ => 0

/-- How many blocks a line takes. -/
def State.blocksOn (s : State α) (t : Tuning α) (p : Program α) (l : Line α) : ℕ :=
  if l.isEmpty then 0
  else if s.started then 1 + cycleBlocks t p (s.modal.withModesOf l) l
  else 1

theorem pairwise_line_of_contour? {contour : List (ContourPoint α)}
    (h : contour? t p l = some contour) : contour.Pairwise fun a b => a.line ≤ b.line := by
  unfold contour? at h
  cases hlabels : l.cycleLabels with
  | error e => rw [hlabels] at h; cases h
  | ok labels =>
    rw [hlabels] at h
    cases hbetween : Contour.between t.arc p labels.1 labels.2 with
    | error e =>
      simp only [bind, Except.bind, hbetween] at h
      cases h
    | ok c =>
      simp only [bind, Except.bind, hbetween] at h
      obtain rfl := Option.some.inj h
      exact Contour.pairwise_line_of_between hbetween

theorem block_rough (t : Tuning α) (p : Program α) (s : State α) (l : Line α) (index : ℕ) :
    (rough t p s l index).state.block =
      s.block + ((contour? t p l).map (roughBlocks t s.modal l)).getD 0 := by
  unfold rough
  cases contour? t p l with
  | none => rfl
  | some contour => rcases contour with _ | ⟨a, _ | ⟨b, rest⟩⟩ <;> rfl

theorem lastBlock_finishing {contour : List (ContourPoint α)} (c : Finishing α) (stamp : CycleLine)
    (h : contour? t p l = some contour) :
    (c.expand contour stamp).lastBlock = stamp.block + finishBlocks contour := by
  cases contour with
  | nil => rfl
  | cons first rest =>
    have hfollows : c.Follows (first :: rest) stamp (c.expand (first :: rest) stamp) :=
      c.follows_expand (List.cons_ne_nil first rest) (pairwise_line_of_contour? h)
    exact hfollows.lastBlock

theorem block_finish (t : Tuning α) (p : Program α) (s : State α) (l : Line α) (index : ℕ) :
    (finish t p s l index).state.block =
      s.block + ((contour? t p l).map finishBlocks).getD 0 := by
  unfold finish
  cases hcontour : contour? t p l with
  | none => rfl
  | some contour => exact lastBlock_finishing _ ⟨s.block, index, l.aux?⟩ hcontour

theorem block_perform (t : Tuning α) (p : Program α) (s : State α) (l : Line α) (index : ℕ) :
    (perform t p s l index).state.block = s.block + cycleBlocks t p s.modal l := by
  unfold perform cycleBlocks
  cases l.action with
  | rough => exact block_rough t p s l index
  | finish => exact block_finish t p s l index
  | move => exact (move_state t s l index).1
  | mark code => rfl
  | announce depth => rfl
  | nothing => rfl

/-- **The counter goes up by the blocks that a line takes.** -/
theorem block_step : (step t p s l index).state.block = s.block + s.blocksOn t p l := by
  unfold step State.blocksOn
  by_cases hempty : l.isEmpty = true
  · rw [if_pos hempty, if_pos hempty]
    rfl
  rw [if_neg hempty, if_neg hempty]
  by_cases hs : s.started = true
  · rw [if_pos (by simpa using hs), if_pos hs, block_perform, entering_block, Nat.add_assoc]
    rfl
  · rw [if_neg (by simpa using hs), if_neg hs, start]
    dsimp only
    split_ifs <;> rfl

/-- A line whose roughing cycle is expanded takes a block for each pass and three more. -/
theorem blocksOn_of_roughs {v : Visit α} {contour : List (ContourPoint α)}
    (h : v.Roughs t p contour) :
    v.before.blocksOn t p v.line = (v.roughing t).passCount contour + 3 := by
  have haction := Line.action_of_callsRoughing h.calls
  have hempty : v.line.isEmpty ≠ true := by
    intro hempty
    rw [Line.action_of_isEmpty hempty] at haction
    cases haction
  rw [State.blocksOn, if_neg hempty, if_pos h.started, cycleBlocks, haction]
  dsimp only
  rw [h.contour_eq]
  rcases contour with _ | ⟨a, _ | ⟨b, rest⟩⟩
  · exact absurd h.length (by simp)
  · exact absurd h.length (by simp)
  · exact Nat.add_comm _ _

/-- A line that calls a finishing cycle takes a block besides those of the cycle. -/
theorem blocksOn_of_finishes {contour : List (ContourPoint α)} (hs : s.started = true)
    (haction : l.action = .finish) (hcontour : contour? t p l = some contour) :
    s.blocksOn t p l = 1 + finishBlocks contour := by
  have hempty : l.isEmpty ≠ true := by
    intro hempty
    rw [Line.action_of_isEmpty hempty] at haction
    cases haction
  rw [State.blocksOn, if_neg hempty, if_pos hs, cycleBlocks, haction]
  dsimp only
  rw [hcontour]
  rfl

/-! ### Walks -/

/-- The values that the counter takes on a line, one after the other. -/
def Visit.counts (v : Visit α) : List ℕ :=
  List.range' (v.before.block + 1) (v.outcome.state.block - v.before.block)

/-- The values that the counter takes. -/
def counts (t : Tuning α) (p : Program α) : List ℕ :=
  (visits t p).flatMap Visit.counts

/-- How many blocks a program takes. -/
def blockTotal (t : Tuning α) (p : Program α) : ℕ :=
  ((visits t p).map fun v => v.before.blocksOn t p v.line).sum

theorem counts_visitsFrom :
    (visitsFrom t p s index).flatMap Visit.counts = List.range' (s.block + 1)
      ((visitsFrom t p s index).map fun v => v.before.blocksOn t p v.line).sum := by
  fun_induction visitsFrom t p s index with
  | case1 s index hlt line o ih =>
    have hblock : o.state.block = s.block + s.blocksOn t p line := block_step
    have hnext : o.state.block + 1 = s.block + 1 + s.blocksOn t p line := by omega
    rw [List.flatMap_cons, ih, List.map_cons, List.sum_cons, Visit.counts, hnext]
    dsimp only
    rw [hblock, Nat.add_sub_cancel_left, List.range'_append_1]
  | case2 => rfl

/-- **The counter goes up to the number of blocks without a gap.** -/
theorem counts_eq_range' (t : Tuning α) (p : Program α) :
    counts t p = List.range' 1 (blockTotal t p) :=
  counts_visitsFrom

theorem forall_mem_counts_le_iff : (∀ n ∈ counts t p, n ≤ limit) ↔ blockTotal t p ≤ limit := by
  rw [counts_eq_range']
  simp only [List.mem_range'_1]
  refine ⟨fun h => ?_, fun h n hn => by omega⟩
  by_contra hlt
  have := h (limit + 1) (by omega)
  omega

/-! ### Programs -/

/-- How many blocks the cycles of a program take. -/
def cycleTotal (t : Tuning α) (p : Program α) : ℕ :=
  ((visits t p).map fun v => cycleBlocks t p (v.before.modal.withModesOf v.line) v.line).sum

theorem blocksOn_le :
    s.blocksOn t p l ≤ 1 + cycleBlocks t p (s.modal.withModesOf l) l := by
  unfold State.blocksOn
  split_ifs <;> omega

/-- Besides those of its cycles a program has no more blocks than lines. -/
theorem blockTotal_le (t : Tuning α) (p : Program α) :
    blockTotal t p ≤ p.lines.size + cycleTotal t p := by
  have hlines : (visits t p).length ≤ p.lines.size := length_visitsFrom_le
  have hsum : blockTotal t p ≤ ((visits t p).map fun v =>
      1 + cycleBlocks t p (v.before.modal.withModesOf v.line) v.line).sum :=
    List.sum_le_sum fun v _ => blocksOn_le
  rw [List.sum_map_add, List.map_const', List.sum_replicate, smul_eq_mul, mul_one] at hsum
  exact hsum.trans (Nat.add_le_add_right hlines _)

/-- **The counter fits exactly if the blocks of the program do.**  It goes from one to their number
without a gap, and besides those of its cycles a program has no more of them than lines. -/
theorem counts_le_iff (t : Tuning α) (p : Program α) :
    counts t p = List.range' 1 (blockTotal t p) ∧
      ((∀ n ∈ counts t p, n ≤ counterLimit) ↔ blockTotal t p ≤ counterLimit) ∧
      blockTotal t p ≤ p.lines.size + cycleTotal t p :=
  ⟨counts_eq_range' t p, forall_mem_counts_le_iff, blockTotal_le t p⟩

/-- Fewer than `2 ^ 20` lines fit with all cycles that take no more than `2 ^ 32 - 2 ^ 20`
blocks. -/
theorem counts_le_of_cycleTotal_le (hlines : p.lines.size < 2 ^ 20)
    (hcycles : cycleTotal t p ≤ 2 ^ 32 - 2 ^ 20) : ∀ n ∈ counts t p, n ≤ counterLimit := by
  rw [forall_mem_counts_le_iff]
  calc blockTotal t p ≤ p.lines.size + cycleTotal t p := blockTotal_le t p
    _ ≤ counterLimit := by
      unfold counterLimit
      omega

namespace Visit

variable {v : Visit α} {contour : List (ContourPoint α)}

/-- What the line of a visit stamps on the points of a cycle that it calls. -/
def stamp (v : Visit α) : CycleLine := ⟨v.before.block + 1, v.index, v.line.aux?⟩

theorem block_of_mem_visits (hv : v ∈ visits t p) :
    v.outcome.state.block = v.before.block + v.before.blocksOn t p v.line := by
  obtain ⟨-, -, hout⟩ := of_mem_visitsFrom hv
  rw [hout, block_step]

/-- **Where the counter fits, it comes through every cycle**: the counted expansion is the one
without a limit. -/
theorem counted?_of_counts_le {e : Expansion α} (hfits : ∀ n ∈ Walk.counts t p, n ≤ counterLimit)
    (hv : v ∈ visits t p) (hlt : v.before.block < e.lastBlock)
    (hlast : e.lastBlock = v.before.block + v.before.blocksOn t p v.line) :
    e.counted? v.stamp = some e := by
  refine Expansion.counted?_of_le hlt (hfits _ (List.mem_flatMap.2 ⟨v, hv, ?_⟩))
  rw [counts, List.mem_range'_1, block_of_mem_visits hv, ← hlast]
  omega

theorem expand?_of_roughs (hfits : ∀ n ∈ Walk.counts t p, n ≤ counterLimit) (hv : v ∈ visits t p)
    (h : v.Roughs t p contour) : (v.roughing t).expand? t.cycle contour v.stamp =
      some ((v.roughing t).expand t.cycle contour v.stamp) := by
  have hne : contour ≠ [] := List.ne_nil_of_length_pos (Nat.zero_lt_of_lt h.length)
  have hlast : ((v.roughing t).expand t.cycle contour v.stamp).lastBlock =
      v.before.block + v.before.blocksOn t p v.line := by
    rw [Roughing.lastBlock_expand hne, blocksOn_of_roughs h]
    show v.before.block + 1 + (v.roughing t).passCount contour + 2 = _
    omega
  refine counted?_of_counts_le hfits hv ?_ hlast
  rw [hlast, blocksOn_of_roughs h]
  omega

theorem expand?_of_finishes (hfits : ∀ n ∈ Walk.counts t p, n ≤ counterLimit) (hv : v ∈ visits t p)
    (hs : v.before.started = true) (haction : v.line.action = .finish)
    (hcontour : contour? t p v.line = some contour) (c : Finishing α) :
    c.expand? contour v.stamp = some (c.expand contour v.stamp) := by
  have hlast : (c.expand contour v.stamp).lastBlock =
      v.before.block + v.before.blocksOn t p v.line := by
    rw [lastBlock_finishing c v.stamp hcontour, blocksOn_of_finishes hs haction hcontour]
    exact Nat.add_assoc _ _ _
  refine counted?_of_counts_le hfits hv ?_ hlast
  rw [hlast, blocksOn_of_finishes hs haction hcontour]
  omega

end Visit

end Walk

namespace Program

/-- With a depth of cut of less than a nanometre, the shaft is cut in as many passes as are counted,
so that its blocks are more than the counter counts. -/
theorem not_counts_le_shaft : ∃ t : Tuning ℝ, t.fault? = none ∧ read Source.shaft = .ok shaft ∧
    shaft.lines.size < 2 ^ 20 ∧ ¬∀ n ∈ Walk.counts t shaft, n ≤ counterLimit := by
  let t : Tuning ℝ := .withCycle { (.standard : CycleSettings ℝ) with depth := 4e-10 }
  have hvalid : t.fault? = none := by
    refine Tuning.fault?_withCycle_eq_none_iff.2 ?_
    norm_num [CycleSettings.standard]
  obtain ⟨hstart, hdepth, -⟩ := Walk.roughing_shaft t
  have hcount : ((Walk.Visit.shaft t).roughing t).passCount Walk.shaftContour =
      Roughing.passLimit := by
    have hmany : Roughing.passLimit ≤ ⌈(24 - 20) / (2 * t.cycle.depth)⌉₊ := by
      refine Nat.cast_le (α := ℝ).1 (le_trans ?_ (Nat.le_ceil _))
      norm_num [t, Tuning.withCycle, Roughing.passLimit]
    rw [Roughing.passCount_eq, hstart, hdepth, Walk.finishDiameter_shaft, min_eq_left hmany]
    decide
  have hblocks := Walk.blocksOn_of_roughs (Walk.roughs_shaft t)
  rw [hcount] at hblocks
  refine ⟨t, hvalid, read_shaft, by decide, ?_⟩
  rw [Walk.forall_mem_counts_le_iff, not_le]
  calc counterLimit < Roughing.passLimit + 3 := by decide
    _ ≤ Walk.blockTotal t shaft :=
      hblocks ▸ List.single_le_sum (fun _ _ => Nat.zero_le _) _
        (List.mem_map_of_mem (Walk.mem_visits_shaft t))

end Program

end Lathe
