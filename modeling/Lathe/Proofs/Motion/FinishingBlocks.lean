import Lathe.Proofs.Motion.ContourWalk
import Lathe.Proofs.Motion.Counting
import Mathlib.Data.List.Dedup

/-!
# Blocks of a finishing cycle

A finishing cycle goes along a contour point by point and takes a new block whenever the program
line of a point is not that of the one before.  It never looks further back.  That this gives each
line a block of its own, also the lines of arcs with their many points, is so because of how
contours are traced: `Contour.pairwise_line_of_between` says that a contour never comes back to an
earlier line.  `Finishing.follows_of_between` puts the two together.

* `Finishing.block_eq_iff_cuts` : cuts are in one block exactly if they come from one line.
* `Finishing.exists_block_cuts` : no block is left out.
* `Finishing.lastBlock_cuts` : there are as many blocks as lines.
* `Finishing.exists_follows_iff` : the blocks can be counted exactly if the last is in range.
-/

namespace Lathe

variable {α : Type} [Scalar α]

namespace Contour

variable {s : ArcSettings α} {t : Tracing α} {lines : List (Line α × Nat)} {p : Program α}
  {first last : Nat} {contour : List (ContourPoint α)}

/-- The points that a line gives name the line. -/
theorem line_of_mem_step {l : Line α} {i : Nat} {q : ContourPoint α} (h : q ∈ (t.step s l i).2) :
    q.line = i := by
  unfold Tracing.step at h
  dsimp only at h
  split_ifs at h
  · cases h
  · obtain ⟨place, -, rfl⟩ := List.mem_map.1 h
    rfl
  · rw [List.mem_singleton.1 h]
  · cases h

theorem exists_of_mem_ofLines {q : ContourPoint α} (h : q ∈ ofLines s t lines) :
    ∃ li ∈ lines, q.line = li.2 := by
  induction lines generalizing t with
  | nil => cases h
  | cons li rest ih =>
    rcases List.mem_append.1 h with h | h
    · exact ⟨li, List.mem_cons_self, line_of_mem_step h⟩
    · obtain ⟨li', hmem, hline⟩ := ih h
      exact ⟨li', List.mem_cons_of_mem _ hmem, hline⟩

/-- Lines in order give points in order. -/
theorem pairwise_line_ofLines (h : lines.Pairwise fun a b => a.2 < b.2) :
    (ofLines s t lines).Pairwise fun a b => a.line ≤ b.line := by
  induction lines generalizing t with
  | nil => exact .nil
  | cons li rest ih =>
    obtain ⟨hli, hrest⟩ := List.pairwise_cons.1 h
    refine List.pairwise_append.2 ⟨?_, ih hrest, fun a ha b hb => ?_⟩
    · refine List.pairwise_of_forall_mem_list fun a ha b hb => ?_
      rw [line_of_mem_step ha, line_of_mem_step hb]
    · obtain ⟨li', hmem, hline⟩ := exists_of_mem_ofLines hb
      rw [line_of_mem_step ha, hline]
      exact (hli li' hmem).le

/-- **A contour never comes back to an earlier line.** -/
theorem pairwise_line_of_between (h : between s p first last = .ok contour) :
    contour.Pairwise fun a b => a.line ≤ b.line := by
  unfold between at h
  cases ha : resolve p first with
  | error e => rw [ha] at h; cases h
  | ok a =>
    cases hb : resolve p last with
    | error e => rw [ha, hb] at h; cases h
    | ok b =>
      rw [ha, hb] at h
      obtain rfl := Except.ok.inj h
      exact pairwise_line_ofLines pairwise_linesBetween

end Contour

namespace Finishing

variable {c : Finishing α} {stamp : CycleLine} {line block n : Nat}
  {contour rest : List (ContourPoint α)} {p : ContourPoint α}

/-! ### Cuts -/

/-- The block of a cut, by the line and the block of the point before. -/
def nextBlock (line block : Nat) (p : ContourPoint α) : Nat :=
  if p.line = line then block else block + 1

theorem cuts_cons : c.cuts stamp line block (p :: rest) =
    (.make p.toPosition (cutKind p.kind) (nextBlock line block p) c.feed (some stamp.line)
        stamp.aux ::
      (c.cuts stamp p.line (nextBlock line block p) rest).1,
      (c.cuts stamp p.line (nextBlock line block p) rest).2) :=
  rfl

theorem length_cuts : (c.cuts stamp line block contour).1.length = contour.length := by
  induction contour generalizing line block with
  | nil => rfl
  | cons p rest ih => rw [cuts_cons, List.length_cons, ih, List.length_cons]

/-- What a cut is, but for its block. -/
theorem map_cuts {β : Type} (f : Point α → β)
    (hf : ∀ (q : Point α) n, f { q with block := n } = f q) :
    (c.cuts stamp line block contour).1.map f = contour.map fun p =>
      f (.make p.toPosition (cutKind p.kind) 0 c.feed (some stamp.line) stamp.aux) := by
  induction contour generalizing line block with
  | nil => rfl
  | cons p rest ih =>
    rw [cuts_cons, List.map_cons, ih, List.map_cons]
    exact congrArg (· :: _) (hf _ _).symm

/-- **Cuts are in one block exactly if they come from one line**, also with the point before
them. -/
theorem block_eq_iff_cuts (c : Finishing α) (stamp : CycleLine) (block : Nat)
    (hline : ∀ p ∈ contour, line ≤ p.line) (hsorted : contour.Pairwise fun a b => a.line ≤ b.line) :
    (∀ pq ∈ contour.zip (c.cuts stamp line block contour).1,
      pq.2.block = block ↔ pq.1.line = line) ∧
    (contour.zip (c.cuts stamp line block contour).1).Pairwise fun a b =>
      a.2.block = b.2.block ↔ a.1.line = b.1.line := by
  induction contour generalizing line block with
  | nil => exact ⟨nofun, .nil⟩
  | cons p rest ih =>
    obtain ⟨hp, hrest⟩ := List.pairwise_cons.1 hsorted
    obtain ⟨hhead, hpairs⟩ := ih (nextBlock line block p) hp hrest
    have hle := hline p List.mem_cons_self
    rw [cuts_cons, List.zip_cons_cons]
    refine ⟨fun pq hpq => ?_, List.pairwise_cons.2 ⟨fun pq hpq => ?_, hpairs⟩⟩
    · rcases List.mem_cons.1 hpq with rfl | hpq
      · simp only [Point.make, nextBlock]
        split_ifs with heq <;> simp [heq]
      · have hblock := ((c.trail_cuts stamp p.line (nextBlock line block p) rest).2.block_mem _
          (List.of_mem_zip hpq).2).1
        have hpline := hp _ (List.of_mem_zip hpq).1
        by_cases heq : p.line = line
        · have hiff := hhead pq hpq
          rwa [nextBlock, if_pos heq, heq] at hiff
        · -- a later line has been reached, and the block with it
          rw [nextBlock, if_neg heq] at hblock
          omega
    · exact eq_comm.trans ((hhead pq hpq).trans eq_comm)

theorem exists_block_cuts (h : block ≤ n) (hn : n ≤ (c.cuts stamp line block contour).2) :
    n = block ∨ ∃ q ∈ (c.cuts stamp line block contour).1, q.block = n := by
  induction contour generalizing line block with
  | nil => exact .inl (le_antisymm hn h)
  | cons p rest ih =>
    rw [cuts_cons] at hn ⊢
    rcases h.eq_or_lt with rfl | hlt
    · exact .inl rfl
    · have hnext : nextBlock line block p ≤ n := by
        unfold nextBlock
        split_ifs <;> omega
      rcases ih hnext hn with rfl | ⟨q, hq, rfl⟩
      · exact .inr ⟨_, List.mem_cons_self, rfl⟩
      · exact .inr ⟨q, List.mem_cons_of_mem _ hq, rfl⟩

/-- **There are as many blocks as lines.** -/
theorem lastBlock_cuts (hline : ∀ p ∈ contour, line ≤ p.line)
    (hsorted : contour.Pairwise fun a b => a.line ≤ b.line) :
    (c.cuts stamp line block contour).2 + 1 =
      block + (line :: contour.map fun p => p.line).dedup.length := by
  induction contour generalizing line block with
  | nil => rfl
  | cons p rest ih =>
    obtain ⟨hp, hrest⟩ := List.pairwise_cons.1 hsorted
    have hle := hline p List.mem_cons_self
    rw [cuts_cons, ih hp hrest, List.map_cons, nextBlock]
    split_ifs with heq
    · rw [← heq, List.dedup_cons_of_mem (a := p.line) (l := p.line :: _) List.mem_cons_self]
    · have hnew : line ∉ p.line :: rest.map fun p => p.line := by
        intro hmem
        rcases List.mem_cons.1 hmem with rfl | hmem
        · exact heq rfl
        · obtain ⟨q, hq, rfl⟩ := List.mem_map.1 hmem
          have := hp q hq
          omega
      rw [List.dedup_cons_of_notMem hnew, List.length_cons]
      omega

/-! ### The cycle -/

theorem points_expand_cons {first : ContourPoint α} : (c.expand (first :: rest) stamp).points =
    .make first.toPosition .rapid (stamp.block + 1) 0.0 (some stamp.line) stamp.aux ::
      (c.cuts stamp first.line (stamp.block + 1) rest).1 ++
      [.make c.start .rapid ((c.cuts stamp first.line (stamp.block + 1) rest).2 + 1) 0.0
        (some stamp.line) none] :=
  rfl

theorem lastBlock_expand_cons {first : ContourPoint α} :
    (c.expand (first :: rest) stamp).lastBlock =
      (c.cuts stamp first.line (stamp.block + 1) rest).2 + 1 :=
  rfl

/-- What the points of a cycle are, but for their blocks. -/
theorem map_points_expand_cons {β : Type} {first : ContourPoint α} (f : Point α → β)
    (hf : ∀ (q : Point α) n, f { q with block := n } = f q) :
    (c.expand (first :: rest) stamp).points.map f =
      f (.make first.toPosition .rapid 0 0.0 (some stamp.line) stamp.aux) ::
        (rest.map fun p =>
          f (.make p.toPosition (cutKind p.kind) 0 c.feed (some stamp.line) stamp.aux)) ++
        [f (.make c.start .rapid 0 0.0 (some stamp.line) none)] := by
  rw [points_expand_cons, List.map_append, List.map_cons, map_cuts f hf, List.map_singleton]
  exact congrArg₂ (fun out home => out :: _ ++ [home]) (hf _ _).symm (hf _ _).symm

/-- The points of the contour beside the points that the cycle gives for them. -/
theorem zip_points_expand_cons {first : ContourPoint α} :
    (first :: rest).zip (c.expand (first :: rest) stamp).points =
      (first, .make first.toPosition .rapid (stamp.block + 1) 0.0 (some stamp.line) stamp.aux) ::
        rest.zip (c.cuts stamp first.line (stamp.block + 1) rest).1 := by
  have happend (home : List (Point α)) :
      rest.zip ((c.cuts stamp first.line (stamp.block + 1) rest).1 ++ home) =
        rest.zip (c.cuts stamp first.line (stamp.block + 1) rest).1 := by
    have hzip : (rest ++ []).zip ((c.cuts stamp first.line (stamp.block + 1) rest).1 ++ home) =
        rest.zip (c.cuts stamp first.line (stamp.block + 1) rest).1 ++ [].zip home :=
      List.zip_append length_cuts.symm
    rwa [List.append_nil, List.zip_nil_left, List.append_nil] at hzip
  rw [points_expand_cons, List.cons_append, List.zip_cons_cons, happend]

/-- **No block is left out.** -/
theorem exists_block_expand (hne : contour ≠ []) (h : stamp.block + 1 ≤ n)
    (hn : n ≤ (c.expand contour stamp).lastBlock) :
    ∃ q ∈ (c.expand contour stamp).points, q.block = n := by
  cases contour with
  | nil => exact absurd rfl hne
  | cons first rest =>
    rw [lastBlock_expand_cons] at hn
    rw [points_expand_cons]
    rcases Nat.le_succ_iff.1 hn with hle | rfl
    · rcases exists_block_cuts h hle with rfl | ⟨q, hq, rfl⟩
      · exact ⟨_, List.mem_cons_self, rfl⟩
      · exact ⟨q, List.mem_cons_of_mem _ (List.mem_append_left _ hq), rfl⟩
    · exact ⟨_, List.mem_append_right _ List.mem_cons_self, rfl⟩

/-- A point without feed. -/
theorem feed_make_zero (p : Position α) (kind : Kind) (block : Nat) (line : Option Nat)
    (aux : Option AuxCode) : (Point.make p kind block 0.0 line aux).feed = 0.0 := by
  simp only [Point.make, Scalar.max]
  split_ifs <;> rfl

/-- How a finishing cycle follows a contour. -/
structure Follows (c : Finishing α) (contour : List (ContourPoint α)) (stamp : CycleLine)
    (e : Expansion α) : Prop where
  /-- It goes to the places of the contour, in order, and then back to where it started. -/
  places : e.points.map (fun q => q.toPosition) =
    contour.map (fun p => p.toPosition) ++ [c.start]
  /-- It comes and goes in rapid motion and cuts otherwise: along arcs as the contour does, and
  straight in place of every other kind. -/
  kinds : e.points.map (fun q => q.kind) =
    .rapid :: contour.tail.map (fun p => if p.kind.isArc then p.kind else .finishFeed) ++ [.rapid]
  /-- It comes and goes without feed and cuts at its own, which counts as zero where it is below. -/
  feeds : e.points.map (fun q => q.feed) =
    0.0 :: contour.tail.map (fun _ => Scalar.max c.feed 0.0) ++ [0.0]
  /-- All points but the return carry the M code of the cycle's line. -/
  aux : e.points.map (fun q => q.aux) = contour.map (fun _ => stamp.aux) ++ [none]
  /-- All of them name this line. -/
  line_eq : ∀ q ∈ e.points, q.line = some stamp.line
  /-- Two points of the contour are in one block exactly if they come from one line. -/
  block_eq_iff : (contour.zip e.points).Pairwise fun a b =>
    a.2.block = b.2.block ↔ a.1.line = b.1.line
  /-- The blocks follow that of the cycle's line without a gap. -/
  blocks : ∀ n, (∃ q ∈ e.points, q.block = n) ↔ stamp.block + 1 ≤ n ∧ n ≤ e.lastBlock
  /-- They come in order. -/
  sorted : e.points.Pairwise fun a b => a.block ≤ b.block
  /-- There is one for each line of the contour, and one for the return. -/
  lastBlock : e.lastBlock = stamp.block + ((contour.map fun p => p.line).dedup.length + 1)

theorem follows_expand (hne : contour ≠ [])
    (hsorted : contour.Pairwise fun a b => a.line ≤ b.line) :
    c.Follows contour stamp (c.expand contour stamp) := by
  obtain ⟨-, htrail⟩ := c.trail_expand stamp contour
  cases contour with
  | nil => exact absurd rfl hne
  | cons first rest =>
    obtain ⟨hline, hrest⟩ := List.pairwise_cons.1 hsorted
    obtain ⟨hhead, hpairs⟩ := block_eq_iff_cuts c stamp (stamp.block + 1) hline hrest
    exact
      { places := map_points_expand_cons _ fun _ _ => rfl
        kinds := map_points_expand_cons _ fun _ _ => rfl
        feeds := by
          rw [map_points_expand_cons _ fun _ _ => rfl, feed_make_zero, feed_make_zero]
          rfl
        aux := map_points_expand_cons _ fun _ _ => rfl
        line_eq := htrail.line_eq
        block_eq_iff := by
          rw [zip_points_expand_cons]
          refine List.pairwise_cons.2 ⟨fun pq hpq => ?_, hpairs⟩
          exact eq_comm.trans ((hhead pq hpq).trans eq_comm)
        blocks := by
          intro n
          constructor
          · rintro ⟨q, hq, rfl⟩
            exact htrail.block_mem q hq
          · exact fun ⟨hlo, hhi⟩ => exists_block_expand hne hlo hhi
        sorted := htrail.sorted
        lastBlock := by
          rw [lastBlock_expand_cons, lastBlock_cuts hline hrest, List.map_cons]
          omega }

/-- **A cycle follows its contour exactly if its blocks can be counted**: those of the lines and the
one of the return. -/
theorem exists_follows_iff (hne : contour ≠ [])
    (hsorted : contour.Pairwise fun a b => a.line ≤ b.line) :
    (∃ e, c.expand? contour stamp = some e ∧ c.Follows contour stamp e) ↔
      stamp.block + ((contour.map fun p => p.line).dedup.length + 1) ≤ counterLimit := by
  have hfollows : c.Follows contour stamp (c.expand contour stamp) := follows_expand hne hsorted
  rw [← hfollows.lastBlock]
  refine Expansion.exists_counted?_iff ?_ hfollows
  rw [hfollows.lastBlock]
  omega

end Finishing

end Lathe
