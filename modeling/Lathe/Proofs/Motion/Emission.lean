import Lathe.Motion.Walk
import Mathlib.Data.List.Basic
import Mathlib.Order.Nat
import Mathlib.Tactic.SplitIfs

/-!
# What a line emits

Each line of a program emits the points of one visit of the walk.  This file says once how they are
stamped; what is said about whole traces follows from it and does not open the cycles again.

* `Trail lo hi line points` : points of one line whose blocks go up from `lo` to at most `hi`.
* `Roughing.trail_expand`, `Finishing.trail_expand` : cycles leave trails.
* `Line.action_of_plain` : what a line does that calls no cycle.
* `Walk.step_emits` : all that a line can emit (`Walk.Emits`).
-/

namespace Lathe

variable {α : Type}

/-- Points that one program line leaves on the way, in blocks that never go down. -/
structure Trail (lo hi line : Nat) (points : List (Point α)) : Prop where
  /-- They name the line. -/
  line_eq : ∀ q ∈ points, q.line = some line
  /-- Their blocks are in the range. -/
  block_mem : ∀ q ∈ points, lo ≤ q.block ∧ q.block ≤ hi
  /-- Their blocks never go down. -/
  sorted : points.Pairwise fun a b => a.block ≤ b.block
  /-- None of them is the start. -/
  kind_ne : ∀ q ∈ points, q.kind ≠ .start

namespace Trail

variable {lo hi mid line : Nat} {points points' : List (Point α)}

theorem nil (lo hi line : Nat) : Trail lo hi line ([] : List (Point α)) :=
  ⟨by simp, by simp, .nil, by simp⟩

/-- Points of one block. -/
theorem of_block {block : Nat} (hline : ∀ q ∈ points, q.line = some line)
    (hblock : ∀ q ∈ points, q.block = block) (hkind : ∀ q ∈ points, q.kind ≠ .start) :
    Trail block block line points := by
  refine ⟨hline, fun q hq => ?_, ?_, hkind⟩
  · rw [hblock q hq]; exact ⟨le_rfl, le_rfl⟩
  · refine List.pairwise_of_forall_mem_list fun a ha b hb => ?_
    rw [hblock a ha, hblock b hb]

theorem mono {lo' hi' : Nat} (h : Trail lo hi line points) (hlo : lo' ≤ lo) (hhi : hi ≤ hi') :
    Trail lo' hi' line points :=
  ⟨h.line_eq, fun q hq => ⟨hlo.trans (h.block_mem q hq).1, (h.block_mem q hq).2.trans hhi⟩,
    h.sorted, h.kind_ne⟩

/-- One trail after another. -/
theorem append {mid' : Nat} (h : Trail lo mid line points) (h' : Trail mid' hi line points')
    (hlo : lo ≤ mid') (hmid : mid ≤ mid') (hhi : mid ≤ hi) :
    Trail lo hi line (points ++ points') := by
  refine ⟨?_, ?_, List.pairwise_append.2 ⟨h.sorted, h'.sorted, fun a ha b hb => ?_⟩, ?_⟩
  · exact List.forall_mem_append.2 ⟨h.line_eq, h'.line_eq⟩
  · exact List.forall_mem_append.2
      ⟨(h.mono le_rfl hhi).block_mem, (h'.mono hlo le_rfl).block_mem⟩
  · have := (h.block_mem a ha).2
    have := (h'.block_mem b hb).1
    omega
  · exact List.forall_mem_append.2 ⟨h.kind_ne, h'.kind_ne⟩

end Trail

variable [Scalar α]

/-- A single point. -/
theorem Trail.singleton (p : Position α) {kind : Kind} (block : Nat) (feed : α) (line : Nat)
    (aux : Option AuxCode) (hkind : kind ≠ .start) :
    Trail block block line [Point.make p kind block feed (some line) aux] := by
  refine .of_block ?_ ?_ ?_ <;> simp [Point.make, hkind]

theorem Trail.rapid (p : Position α) (block : Nat) (feed : α) (line : Nat)
    (aux : Option AuxCode) :
    Trail block block line [Point.make p .rapid block feed (some line) aux] :=
  .singleton p block feed line aux nofun

theorem Motion.kind_ne_start (m : Motion) : m.kind ≠ .start := by
  cases m <;> simp [Motion.kind]

/-! ### Cycles -/

namespace Roughing

variable (c : Roughing α) (s : CycleSettings α) (contour : List (ContourPoint α)) (faceZ : α)
  (stamp : CycleLine)

theorem trail_pass (i : Nat) :
    Trail (stamp.block + i) (stamp.block + i) stamp.line (c.pass s contour faceZ stamp i) := by
  unfold pass
  dsimp only
  split_ifs
  · exact .nil ..
  · refine .of_block ?_ ?_ ?_ <;> simp [passPoints, Point.make]

theorem trail_passes (n : Nat) :
    Trail (stamp.block + 1) (stamp.block + n) stamp.line
      ((List.range' 1 n).flatMap (c.pass s contour faceZ stamp)) := by
  induction n with
  | zero => exact .nil ..
  | succ n ih =>
    rw [List.range'_1_concat, List.flatMap_append, List.flatMap_singleton]
    have hpass := (c.trail_pass s contour faceZ stamp (1 + n)).mono (le_refl _)
      (show _ ≤ stamp.block + (n + 1) by omega)
    exact ih.append hpass (by omega) (by omega) (by omega)

theorem trail_outline (block : Nat) :
    Trail block block stamp.line (c.outline contour stamp block) := by
  refine .of_block ?_ ?_ ?_ <;> simp [outline, Point.make]

/-- **A roughing cycle leaves a trail** behind the block of its own line. -/
theorem trail_expand :
    stamp.block ≤ (c.expand s contour stamp).lastBlock ∧
      Trail (stamp.block + 1) (c.expand s contour stamp).lastBlock stamp.line
        (c.expand s contour stamp).points := by
  cases contour with
  | nil => exact ⟨le_rfl, .nil ..⟩
  | cons first rest =>
    have hlast : (c.expand s (first :: rest) stamp).lastBlock =
        stamp.block + c.passCount (first :: rest) + 2 := rfl
    refine ⟨by omega, ?_⟩
    have hpasses := c.trail_passes s (first :: rest) first.z stamp (c.passCount (first :: rest))
    have houtline := c.trail_outline (first :: rest) stamp
      (stamp.block + c.passCount (first :: rest) + 1)
    have hhome := Trail.rapid c.start (stamp.block + c.passCount (first :: rest) + 2) 0.0
      stamp.line stamp.aux
    exact (hpasses.append houtline (by omega) (by omega) (by omega)).append hhome (by omega)
      (by omega) (by omega)

end Roughing

namespace Finishing

variable (c : Finishing α) (stamp : CycleLine)

theorem cutKind_ne_start (k : Kind) : cutKind k ≠ .start := by
  unfold cutKind
  split_ifs with h
  · rintro rfl; cases h
  · simp

theorem trail_cuts (line block : Nat) (contour : List (ContourPoint α)) :
    block ≤ (c.cuts stamp line block contour).2 ∧
      Trail block (c.cuts stamp line block contour).2 stamp.line
        (c.cuts stamp line block contour).1 := by
  induction contour generalizing line block with
  | nil => exact ⟨le_rfl, .nil ..⟩
  | cons p rest ih =>
    rw [cuts]
    dsimp only
    generalize hb : (if p.line = line then block else block + 1) = b
    have hle : block ≤ b := by rw [← hb]; split_ifs <;> omega
    obtain ⟨hlast, hrest⟩ := ih p.line b
    have hcut := Trail.singleton p.toPosition b c.feed stamp.line stamp.aux
      (cutKind_ne_start p.kind)
    exact ⟨hle.trans hlast, (hcut.append hrest le_rfl le_rfl hlast).mono hle le_rfl⟩

/-- **A finishing cycle leaves a trail** behind the block of its own line. -/
theorem trail_expand (contour : List (ContourPoint α)) :
    stamp.block ≤ (c.expand contour stamp).lastBlock ∧
      Trail (stamp.block + 1) (c.expand contour stamp).lastBlock stamp.line
        (c.expand contour stamp).points := by
  cases contour with
  | nil => exact ⟨le_rfl, .nil ..⟩
  | cons first rest =>
    obtain ⟨hlast, hcuts⟩ := c.trail_cuts stamp first.line (stamp.block + 1) rest
    simp only [expand]
    generalize (c.cuts stamp first.line (stamp.block + 1) rest).2 = last at hlast hcuts ⊢
    have happroach := Trail.rapid first.toPosition (stamp.block + 1) 0.0 stamp.line stamp.aux
    have hhome := Trail.rapid c.start (last + 1) 0.0 stamp.line none
    refine ⟨by omega, ?_⟩
    exact happroach.append ((hcuts.append hhome (by omega) (by omega) (by omega))) (by omega)
      (by omega) (by omega)

end Finishing

/-! ### Lines -/

namespace Line

variable {l : Line α}

/-- A line that calls no cycle leaves a mark if it has an M code and is still, and moves if it is
not still. -/
theorem action_of_plain (h₇₀ : l.hasCode 70 = false) (h₇₁ : l.hasCode 71 = false) :
    l.action = if l.isStill then
      match l.aux? with
      | some code => .mark code
      | none => .nothing
    else .move := by
  have hplain : l.busyAction = if l.isStill then .nothing else .move := by
    simp [busyAction, plainAction, h₇₀, h₇₁]
  unfold action
  cases l.aux? <;> cases hstill : l.isStill <;> simp [hplain, hstill, h₇₀, h₇₁]

end Line

namespace Walk

variable {t : Tuning α} {p : Program α} {s : State α} {l : Line α} {index : Nat}

/-- What a line can emit that is walked over in the state `s`. -/
structure Emits (s : State α) (l : Line α) (index : Nat) (o : Outcome α) : Prop where
  /-- The block number never goes down. -/
  block_le : s.block ≤ o.state.block
  /-- The points name the line. -/
  line_eq : ∀ q ∈ o.points, q.line = some index
  /-- Their blocks are new ones, up to the block number after the line. -/
  block_mem : ∀ q ∈ o.points, s.block < q.block ∧ q.block ≤ o.state.block
  /-- Their blocks never go down. -/
  sorted : o.points.Pairwise fun a b => a.block ≤ b.block
  /-- A line without words emits nothing. -/
  quiet : l.isEmpty = true → o.points = []
  /-- Once the tool has a place it keeps one, and no point is the start. -/
  started : s.started = true → o.state.started = true ∧ ∀ q ∈ o.points, q.kind ≠ .start
  /-- Before, the line gives the start and nothing else, or no point. -/
  starts : s.started = false →
    (o.state.started = false ∧ o.points = []) ∨
      (o.state.started = true ∧ ∃ q, o.points = [q] ∧ q.kind = .start)
  /-- All points of a line that calls no cycle share a block. -/
  plain : l.hasCode 70 = false → l.hasCode 71 = false →
    ∀ q ∈ o.points, q.block = s.block + 1

@[simp] theorem entering_block : (s.entering l).block = s.block + 1 := rfl

@[simp] theorem entering_started : (s.entering l).started = s.started := rfl

theorem move_state (t : Tuning α) (s : State α) (l : Line α) (index : Nat) :
    (move t s l index).state.block = s.block ∧
      (move t s l index).state.started = s.started := by
  unfold move
  dsimp only
  split_ifs <;> exact ⟨rfl, rfl⟩

theorem trail_move : Trail s.block s.block index (move t s l index).points := by
  unfold move
  dsimp only
  split_ifs
  · exact .nil ..
  · refine .of_block ?_ ?_ ?_ <;> simp [Point.make, Motion.kind_ne_start]

theorem trail_mark (code : AuxCode) : Trail s.block s.block index (mark s code index).points := by
  refine .of_block ?_ ?_ ?_ <;> simp [mark, Point.make]

/-- **Whatever a line does, it leaves a trail** from its own block on. -/
theorem trail_perform (t : Tuning α) (p : Program α) (s : State α) (l : Line α) (index : Nat) :
    s.block ≤ (perform t p s l index).state.block ∧
      (perform t p s l index).state.started = s.started ∧
      Trail s.block (perform t p s l index).state.block index (perform t p s l index).points := by
  unfold perform
  cases l.action with
  | mark code => exact ⟨le_rfl, rfl, trail_mark code⟩
  | announce depth => exact ⟨le_rfl, rfl, .nil ..⟩
  | rough =>
    dsimp only
    unfold rough
    dsimp only
    split
    · rename_i a b rest _
      obtain ⟨hle, htrail⟩ := (roughing t s.modal l).trail_expand t.cycle (a :: b :: rest)
        ⟨s.block, index, l.aux?⟩
      exact ⟨hle, rfl, htrail.mono (Nat.le_succ _) le_rfl⟩
    · exact ⟨le_rfl, rfl, .nil ..⟩
  | finish =>
    dsimp only
    unfold finish
    split
    · exact ⟨le_rfl, rfl, .nil ..⟩
    · rename_i contour _
      obtain ⟨hle, htrail⟩ := (Finishing.mk s.modal.position s.modal.feed).trail_expand
        ⟨s.block, index, l.aux?⟩ contour
      exact ⟨hle, rfl, htrail.mono (Nat.le_succ _) le_rfl⟩
  | move =>
    obtain ⟨hblock, hstarted⟩ := move_state t s l index
    exact ⟨hblock.ge, hstarted, trail_move.mono le_rfl hblock.ge⟩
  | nothing => exact ⟨le_rfl, rfl, .nil ..⟩

/-- A line that calls no cycle takes no further block. -/
theorem perform_block_of_plain (h₇₀ : l.hasCode 70 = false) (h₇₁ : l.hasCode 71 = false) :
    (perform t p s l index).state.block = s.block := by
  rw [perform, Line.action_of_plain h₇₀ h₇₁]
  split_ifs
  · cases l.aux? <;> rfl
  · exact (move_state t s l index).1

/-- What a line leads to that calls no cycle, once the tool has a place. -/
theorem step_of_plain (h₇₀ : l.hasCode 70 = false) (h₇₁ : l.hasCode 71 = false)
    (hempty : l.isEmpty = false) (hs : s.started = true) : step t p s l index =
      if l.isStill then
        match l.aux? with
        | some code => mark (s.entering l) code index
        | none => .quiet (s.entering l)
      else move t (s.entering l) l index := by
  rw [step, if_neg (by simp [hempty]), if_pos (by simpa using hs), perform,
    Line.action_of_plain h₇₀ h₇₁]
  split_ifs
  · cases l.aux? <;> rfl
  · rfl

/-- **What a line emits.** -/
theorem step_emits : Emits s l index (step t p s l index) := by
  unfold step
  by_cases hempty : l.isEmpty = true
  · rw [if_pos hempty]
    exact ⟨le_rfl, by simp [Outcome.quiet], by simp [Outcome.quiet], .nil, fun _ => rfl,
      fun hs => ⟨hs, by simp [Outcome.quiet]⟩, fun hs => .inl ⟨hs, rfl⟩,
      fun _ _ => by simp [Outcome.quiet]⟩
  rw [if_neg hempty]
  by_cases hs : s.started = true
  -- the tool has a place: the line leaves a trail
  · rw [if_pos (by simpa using hs)]
    obtain ⟨hle, hstarted, htrail⟩ := trail_perform t p (s.entering l) l index
    rw [entering_block] at hle htrail
    refine ⟨Nat.le_of_succ_le hle, htrail.line_eq, htrail.block_mem, htrail.sorted,
      fun h => absurd h hempty, fun _ => ⟨hstarted.trans hs, htrail.kind_ne⟩,
      fun h => absurd hs (by simp [h]), fun h₇₀ h₇₁ q hq => ?_⟩
    have hblock := htrail.block_mem q hq
    rw [perform_block_of_plain h₇₀ h₇₁, entering_block] at hblock
    exact Nat.le_antisymm hblock.2 hblock.1
  -- it has none: the line may give the start
  · rw [if_neg (by simpa using hs)]
    rw [Bool.not_eq_true] at hs
    unfold start
    dsimp only
    split_ifs
    · refine ⟨Nat.le_succ _, ?_, ?_, List.pairwise_singleton _ _, fun h => absurd h hempty,
        fun h => absurd h (by simp [hs]), fun _ => .inr ⟨rfl, _, rfl, rfl⟩, fun _ _ => ?_⟩ <;>
        simp [Point.make]
    · exact ⟨Nat.le_succ _, by simp [Outcome.quiet], by simp [Outcome.quiet], .nil, fun _ => rfl,
        fun h => absurd h (by simp [hs]), fun _ => .inl ⟨hs, rfl⟩,
        fun _ _ => by simp [Outcome.quiet]⟩

end Walk

end Lathe
