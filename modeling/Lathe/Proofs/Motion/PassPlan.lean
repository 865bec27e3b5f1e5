import Lathe.Proofs.Motion.Counting
import Lathe.Proofs.Motion.Emission
import Lathe.Proofs.Motion.Gouging

/-!
# The plan of a roughing cycle

How many passes a roughing cycle makes, at which diameters and in which blocks is worked out in
three places.  Over the real numbers they fit together: the passes are the fewest that get down to
the finished diameter, each cuts at a smaller diameter than the one before but by no more than a
step, the last one cuts exactly at the finished diameter (`Roughing.Descends`), and every block has
its own part of the cycle, also where a pass is left out because it would stop at the face
(`Roughing.Plan`).

The blocks are read off the points that the cycle gives (`Expansion.inBlock`), not off the way in
which it puts them together.  They are two more than the passes, which may be as many as there are
numbers of blocks: so the cycle comes out as planned exactly if the number of its last block is in
range (`Roughing.plan_iff`), and never does with the most passes (`Roughing.not_plan_passLimit`).

* `Roughing.isLeast_passCount` : the passes are the fewest that do.
* `Roughing.passDiameter_step` : the steps between them.
* `Roughing.inBlock_pass`, `Roughing.inBlock_outline`, `Roughing.inBlock_home` : what is in a block.
-/

namespace Lathe

/-- The points of a cycle that are in one block. -/
def Expansion.inBlock {α : Type} (e : Expansion α) (block : ℕ) : List (Point α) :=
  e.points.filter fun q => q.block = block

namespace Trail

variable {α : Type} {lo hi line block : ℕ} {points : List (Point α)}

theorem filter_block_eq_nil (h : Trail lo hi line points) (hblock : block < lo ∨ hi < block) :
    (points.filter fun q => q.block = block) = [] := by
  rw [List.filter_eq_nil_iff]
  intro q hq
  have := h.block_mem q hq
  simp only [decide_eq_true_eq]
  omega

theorem filter_block_eq_self (h : Trail block block line points) :
    (points.filter fun q => q.block = block) = points := by
  rw [List.filter_eq_self]
  intro q hq
  have := h.block_mem q hq
  simp only [decide_eq_true_eq]
  omega

end Trail

namespace Roughing

open Contour

/-! ### Blocks -/

section

variable {α : Type} [Scalar α] {c : Roughing α} {s : CycleSettings α}
  {contour : List (ContourPoint α)} {first : ContourPoint α} {faceZ : α} {stamp : CycleLine}
  {n i : ℕ}

/-- Each pass has a block of its own. -/
theorem filter_passes (h1 : 1 ≤ i) (hi : i ≤ n) :
    (((List.range' 1 n).flatMap (c.pass s contour faceZ stamp)).filter fun q =>
      q.block = stamp.block + i) = c.pass s contour faceZ stamp i := by
  induction n with
  | zero => omega
  | succ n ih =>
    rw [List.range'_1_concat, List.flatMap_append, List.flatMap_singleton, List.filter_append]
    rcases Nat.lt_or_eq_of_le hi with hlt | rfl
    · rw [ih (by omega),
        (c.trail_pass s contour faceZ stamp (1 + n)).filter_block_eq_nil (by omega),
        List.append_nil]
    · rw [(c.trail_passes s contour faceZ stamp n).filter_block_eq_nil (by omega), Nat.add_comm 1 n,
        (c.trail_pass s contour faceZ stamp (n + 1)).filter_block_eq_self, List.nil_append]

theorem points_expand_cons {rest : List (ContourPoint α)} :
    (c.expand s (first :: rest) stamp).points =
      (List.range' 1 (c.passCount (first :: rest))).flatMap
        (c.pass s (first :: rest) first.z stamp) ++
      c.outline (first :: rest) stamp (stamp.block + c.passCount (first :: rest) + 1) ++
      [.make c.start .rapid (stamp.block + c.passCount (first :: rest) + 2) 0.0 (some stamp.line)
        stamp.aux] :=
  rfl

theorem inBlock_expand_cons {rest : List (ContourPoint α)} (block : ℕ) :
    (c.expand s (first :: rest) stamp).inBlock block =
      (((List.range' 1 (c.passCount (first :: rest))).flatMap
        (c.pass s (first :: rest) first.z stamp)).filter fun q => q.block = block) ++
      ((c.outline (first :: rest) stamp (stamp.block + c.passCount (first :: rest) + 1)).filter
        fun q => q.block = block) ++
      ([Point.make c.start .rapid (stamp.block + c.passCount (first :: rest) + 2) 0.0
        (some stamp.line) stamp.aux].filter fun q => q.block = block) := by
  rw [Expansion.inBlock, points_expand_cons, List.filter_append, List.filter_append]

theorem inBlock_pass (hfirst : first ∈ contour.head?) (h1 : 1 ≤ i) (hi : i ≤ c.passCount contour) :
    (c.expand s contour stamp).inBlock (stamp.block + i) =
      c.pass s contour first.z stamp i := by
  cases contour with
  | nil => cases hfirst
  | cons a rest =>
    obtain rfl : a = first := Option.some.inj hfirst
    rw [inBlock_expand_cons, filter_passes h1 hi,
      (c.trail_outline _ stamp _).filter_block_eq_nil (by omega),
      (Trail.rapid ..).filter_block_eq_nil (by omega), List.append_nil,
      List.append_nil]

theorem inBlock_outline (hne : contour ≠ []) :
    (c.expand s contour stamp).inBlock (stamp.block + c.passCount contour + 1) =
      c.outline contour stamp (stamp.block + c.passCount contour + 1) := by
  cases contour with
  | nil => exact absurd rfl hne
  | cons a rest =>
    rw [inBlock_expand_cons, (c.trail_passes s _ _ stamp _).filter_block_eq_nil (by omega),
      (c.trail_outline _ stamp _).filter_block_eq_self,
      (Trail.rapid ..).filter_block_eq_nil (by omega), List.append_nil,
      List.nil_append]

theorem inBlock_home (hne : contour ≠ []) :
    (c.expand s contour stamp).inBlock (stamp.block + c.passCount contour + 2) =
      [.make c.start .rapid (stamp.block + c.passCount contour + 2) 0.0 (some stamp.line)
        stamp.aux] := by
  cases contour with
  | nil => exact absurd rfl hne
  | cons a rest =>
    rw [inBlock_expand_cons, (c.trail_passes s _ _ stamp _).filter_block_eq_nil (by omega),
      (c.trail_outline _ stamp _).filter_block_eq_nil (by omega),
      (Trail.rapid ..).filter_block_eq_self, List.append_nil, List.nil_append]

theorem lastBlock_expand (hne : contour ≠ []) :
    (c.expand s contour stamp).lastBlock = stamp.block + c.passCount contour + 2 := by
  cases contour with
  | nil => exact absurd rfl hne
  | cons a rest => rfl

theorem getLast?_expand (hne : contour ≠ []) :
    (c.expand s contour stamp).points.getLast? = some (.make c.start .rapid
      (stamp.block + c.passCount contour + 2) 0.0 (some stamp.line) stamp.aux) := by
  cases contour with
  | nil => exact absurd rfl hne
  | cons a rest => rw [points_expand_cons, List.getLast?_concat]

end

/-! ### Passes -/

variable {c : Roughing ℝ} {s : CycleSettings ℝ} {contour : List (ContourPoint ℝ)}
  {stamp : CycleLine} {faceZ : ℝ} {i : ℕ}

theorem pass_eq_nil_iff : c.pass s contour faceZ stamp i = [] ↔
    faceZ - s.faceTolerance ≤ c.stop s contour (c.passDiameter contour i) := by
  simp [pass, passPoints]

theorem pass_of_ne_nil (h : c.pass s contour faceZ stamp i ≠ []) :
    c.pass s contour faceZ stamp i = c.passPoints stamp (stamp.block + i)
      (c.passDiameter contour i) (c.stop s contour (c.passDiameter contour i)) :=
  if_neg (pass_eq_nil_iff.not.1 h)

theorem isLeast_finishDiameter (hne : contour ≠ []) :
    IsLeast {x | ∃ p ∈ contour, p.x + |c.allowanceX| = x} (c.finishDiameter contour) := by
  constructor
  · obtain ⟨p, hp, hx⟩ : ∃ p ∈ contour, p.x = smallest contour :=
      List.mem_map.1 (Scalar.least_mem (by simpa using hne))
    exact ⟨p, hp, by rw [hx]; rfl⟩
  · rintro x ⟨p, hp, rfl⟩
    exact add_le_add_left (smallest_le hp) _

/-- As many steps get down to the finished diameter as there are in the way to it. -/
theorem ceil_le_iff (hd : 0 < c.cut.depth) {n : ℕ} :
    ⌈(c.start.x - c.finishDiameter contour) / (2 * c.cut.depth)⌉₊ ≤ n ↔
      c.start.x - 2 * c.cut.depth * n ≤ c.finishDiameter contour := by
  rw [Nat.ceil_le, div_le_iff₀ (by linarith), sub_le_iff_le_add, sub_le_iff_le_add, mul_comm,
    add_comm]

/-- **The passes are the fewest that get down to the finished diameter**, and at least one. -/
theorem isLeast_passCount (hd : 0 < c.cut.depth)
    (hlimit : (c.start.x - c.finishDiameter contour) / (2 * c.cut.depth) ≤ passLimit) :
    IsLeast {n : ℕ | 1 ≤ n ∧ c.start.x - 2 * c.cut.depth * n ≤ c.finishDiameter contour}
      (c.passCount contour) := by
  have hceil := Nat.ceil_le.2 hlimit
  rw [passCount_eq, min_eq_right hceil]
  constructor
  · exact ⟨le_max_left _ _, (ceil_le_iff hd).1 (le_max_right _ _)⟩
  · rintro n ⟨h1, hn⟩
    exact max_le h1 ((ceil_le_iff hd).2 hn)

/-- Before the last pass the steps have not got down to the finished diameter. -/
theorem finishDiameter_lt_of_lt (hd : 0 < c.cut.depth)
    (hlimit : (c.start.x - c.finishDiameter contour) / (2 * c.cut.depth) ≤ passLimit)
    (hstock : c.finishDiameter contour < c.start.x) (hi : i < c.passCount contour) :
    c.finishDiameter contour < c.start.x - i * (2 * c.cut.depth) := by
  cases i with
  | zero => simpa using hstock
  | succ i =>
    by_contra hle
    rw [not_lt, mul_comm] at hle
    exact absurd ((isLeast_passCount hd hlimit).2 ⟨Nat.le_add_left 1 i, hle⟩) (not_le.2 hi)

/-- **Each pass takes a step**, a whole one or what is left of it. -/
theorem passDiameter_step (hd : 0 < c.cut.depth)
    (hlimit : (c.start.x - c.finishDiameter contour) / (2 * c.cut.depth) ≤ passLimit)
    (hstock : c.finishDiameter contour < c.start.x) (hi : i < c.passCount contour) :
    c.passDiameter contour (i + 1) < c.passDiameter contour i ∧
      c.passDiameter contour i - c.passDiameter contour (i + 1) ≤ 2 * c.cut.depth := by
  have hlt := finishDiameter_lt_of_lt hd hlimit hstock hi
  rw [passDiameter_eq, passDiameter_eq, max_eq_left hlt.le]
  push_cast
  constructor
  · refine max_lt ?_ hlt
    linarith
  · have := le_max_left (c.start.x - (i + 1) * (2 * c.cut.depth)) (c.finishDiameter contour)
    linarith

theorem passDiameter_zero (hstock : c.finishDiameter contour < c.start.x) :
    c.passDiameter contour 0 = c.start.x := by
  rw [passDiameter_eq, Nat.cast_zero, zero_mul, sub_zero, max_eq_left hstock.le]

/-! ### The plan -/

/-- How the passes of a roughing cycle get down to the finished diameter. -/
structure Descends (c : Roughing ℝ) (contour : List (ContourPoint ℝ)) : Prop where
  /-- The finished diameter is the smallest one of the contour with the allowance. -/
  finish : IsLeast {x | ∃ p ∈ contour, p.x + |c.allowanceX| = x} (c.finishDiameter contour)
  /-- The passes are the fewest that get down to it, and at least one. -/
  passes : IsLeast {n : ℕ | 1 ≤ n ∧ c.start.x - 2 * c.cut.depth * n ≤ c.finishDiameter contour}
    (c.passCount contour)
  /-- From the stock inwards, each pass cuts at a smaller diameter than the one before, by no more
  than twice the depth of cut. -/
  steps : c.finishDiameter contour < c.start.x → c.passDiameter contour 0 = c.start.x ∧
    ∀ i < c.passCount contour, c.passDiameter contour (i + 1) < c.passDiameter contour i ∧
      c.passDiameter contour i - c.passDiameter contour (i + 1) ≤ 2 * c.cut.depth
  /-- The last pass cuts at the finished diameter. -/
  last : c.passDiameter contour (c.passCount contour) = c.finishDiameter contour

/-- The plan of a roughing cycle: what is in its blocks. -/
structure Plan (c : Roughing ℝ) (s : CycleSettings ℝ) (contour : List (ContourPoint ℝ))
    (stamp : CycleLine) (e : Expansion ℝ) : Prop where
  /-- A pass has a block of its own, without points exactly if it would stop at the face. -/
  skips : ∀ face ∈ contour.head?, ∀ i, 1 ≤ i → i ≤ c.passCount contour →
    (e.inBlock (stamp.block + i) = [] ↔
      face.z - s.faceTolerance ≤ c.stop s contour (c.passDiameter contour i))
  /-- Otherwise its block has the six points of the pass. -/
  cuts : ∀ i, 1 ≤ i → i ≤ c.passCount contour → e.inBlock (stamp.block + i) ≠ [] →
    e.inBlock (stamp.block + i) = c.passPoints stamp (stamp.block + i) (c.passDiameter contour i)
      (c.stop s contour (c.passDiameter contour i))
  /-- The next block has a rapid to the finished diameter and the contour with the allowance. -/
  outline : e.inBlock (stamp.block + c.passCount contour + 1) =
    .make ⟨c.finishDiameter contour, c.start.z⟩ .rapid (stamp.block + c.passCount contour + 1) 0.0
        (some stamp.line) stamp.aux ::
      contour.map fun p => .make ⟨p.x + |c.allowanceX|, p.z + |c.allowanceZ|⟩ .stockAllowance
        (stamp.block + c.passCount contour + 1) 0.0 (some stamp.line) stamp.aux
  /-- The block after it has the return to the start and nothing else. -/
  home : e.inBlock (stamp.block + c.passCount contour + 2) =
    [.make c.start .rapid (stamp.block + c.passCount contour + 2) 0.0 (some stamp.line) stamp.aux]
  /-- With this block the cycle ends. -/
  lastBlock : e.lastBlock = stamp.block + c.passCount contour + 2
  /-- There are no other blocks, and all of them follow that of the cycle's line. -/
  range : ∀ q ∈ e.points, stamp.block < q.block ∧ q.block ≤ e.lastBlock
  /-- The blocks come in order. -/
  sorted : e.points.Pairwise fun a b => a.block ≤ b.block
  /-- The return is the last point. -/
  getLast?_eq : e.points.getLast? = some (.make c.start .rapid
    (stamp.block + c.passCount contour + 2) 0.0 (some stamp.line) stamp.aux)

theorem descends (hd : 0 < c.cut.depth) (hne : contour ≠ [])
    (hlimit : (c.start.x - c.finishDiameter contour) / (2 * c.cut.depth) ≤ passLimit) :
    c.Descends contour := by
  have hreaches : c.start.x - passLimit * (2 * c.cut.depth) ≤ c.finishDiameter contour := by
    rw [div_le_iff₀ (by linarith)] at hlimit
    linarith
  refine ⟨isLeast_finishDiameter hne, isLeast_passCount hd hlimit, fun hstock => ?_,
    passDiameter_passCount hd hreaches⟩
  exact ⟨passDiameter_zero hstock, fun i hi => passDiameter_step hd hlimit hstock hi⟩

theorem plan_expand (hne : contour ≠ []) : c.Plan s contour stamp (c.expand s contour stamp) := by
  obtain ⟨-, htrail⟩ := c.trail_expand s contour stamp
  exact
    { skips := by
        intro face hface i h1 hi
        rw [inBlock_pass hface h1 hi, pass_eq_nil_iff]
      cuts := by
        intro i h1 hi hpoints
        obtain ⟨face, hface⟩ := Option.ne_none_iff_exists'.1 (List.head?_eq_none_iff.not.2 hne)
        rw [inBlock_pass hface h1 hi] at hpoints ⊢
        exact pass_of_ne_nil hpoints
      outline := inBlock_outline hne
      home := inBlock_home hne
      lastBlock := lastBlock_expand hne
      range := fun q hq => htrail.block_mem q hq
      sorted := htrail.sorted
      getLast?_eq := getLast?_expand hne }

/-- A cycle has its plan exactly if its blocks can be counted. -/
theorem exists_plan_iff (hne : contour ≠ []) :
    (∃ e, c.expand? s contour stamp = some e ∧ c.Plan s contour stamp e) ↔
      stamp.block + c.passCount contour + 2 ≤ counterLimit := by
  have hlast : (c.expand s contour stamp).lastBlock = stamp.block + c.passCount contour + 2 :=
    lastBlock_expand hne
  rw [← hlast]
  refine Expansion.exists_counted?_iff ?_ (plan_expand hne)
  rw [hlast]
  omega

/-- **The plan of a roughing cycle is exact, exactly if its blocks can be counted.**  For a positive
depth of cut, a contour with a point and no more passes than are counted: the passes are the fewest
that get down to the finished diameter, in steps of at most twice the depth of cut, and the last one
is exactly there.  If and only if two more blocks than passes can be counted from that of the
cycle's line on, the cycle is expanded so that each pass has a block of its own with its six points,
or with none exactly if it would stop at the face; then come the outline of the allowance in one
block and the return to the start in another, the last. -/
theorem plan_iff (hd : 0 < c.cut.depth) (hne : contour ≠ [])
    (hlimit : (c.start.x - c.finishDiameter contour) / (2 * c.cut.depth) ≤ passLimit) :
    c.Descends contour ∧
      ((∃ e, c.expand? s contour stamp = some e ∧ c.Plan s contour stamp e) ↔
        stamp.block + c.passCount contour + 2 ≤ counterLimit) :=
  ⟨descends hd hne hlimit, exists_plan_iff hne⟩

/-- A pass that is left out, one that cuts, and one that takes what is left of a step. -/
theorem plan_iff_onBar :
    0 < onBar.cut.depth ∧ through [(20, 0), (20, -10), (22, -20)] ≠ [] ∧
      (onBar.start.x - onBar.finishDiameter (through [(20, 0), (20, -10), (22, -20)])) /
        (2 * onBar.cut.depth) ≤ passLimit ∧
      onBar.passCount (through [(20, 0), (20, -10), (22, -20)]) = 3 ∧
      onBar.Descends (through [(20, 0), (20, -10), (22, -20)]) ∧
      ∃ e, onBar.expand? .standard (through [(20, 0), (20, -10), (22, -20)]) ⟨4, 7, some ⟨8⟩⟩ =
          some e ∧
        onBar.Plan .standard (through [(20, 0), (20, -10), (22, -20)]) ⟨4, 7, some ⟨8⟩⟩ e := by
  have hw : Widens (through [(20, 0), (20, -10), (22, -20)]) := by
    simp only [Widens, through, List.map_cons, List.map_nil, List.isChain_cons_cons]
    norm_num
  have hd : 0 < onBar.cut.depth := by norm_num [onBar]
  have hne : through [(20, 0), (20, -10), (22, -20)] ≠ [] := by simp [through]
  have hfinish : onBar.finishDiameter (through [(20, 0), (20, -10), (22, -20)]) = 20.5 := by
    have hsmall : smallest (through [(20, 0), (20, -10), (22, -20)]) = 20 := hw.smallest_eq
    rw [finishDiameter, hsmall]
    norm_num [onBar]
  have hlimit : (onBar.start.x - onBar.finishDiameter (through [(20, 0), (20, -10), (22, -20)])) /
      (2 * onBar.cut.depth) ≤ passLimit := by
    rw [hfinish]
    norm_num [onBar, passLimit]
  have hcount : onBar.passCount (through [(20, 0), (20, -10), (22, -20)]) = 3 := by
    refine (isLeast_passCount hd hlimit).unique ⟨?_, ?_⟩
    · simp only [hfinish]
      norm_num [onBar]
    · rintro n ⟨-, hn⟩
      rw [hfinish] at hn
      norm_num [onBar] at hn
      by_contra hlt
      have : (n : ℝ) ≤ 2 := by exact_mod_cast Nat.lt_succ_iff.1 (not_le.1 hlt)
      linarith
  obtain ⟨hdescends, hplan⟩ := plan_iff hd hne hlimit
  exact ⟨hd, hne, hlimit, hcount, hdescends, hplan.2 (by rw [hcount]; decide)⟩

/-- With as many passes as are counted there is no plan, whatever the block of the cycle's line. -/
theorem not_plan_passLimit : ∃ (c : Roughing ℝ) (contour : List (ContourPoint ℝ)),
    0 < c.cut.depth ∧ contour ≠ [] ∧
      (c.start.x - c.finishDiameter contour) / (2 * c.cut.depth) = passLimit ∧
      ∀ s stamp, ¬∃ e, c.expand? s contour stamp = some e ∧ c.Plan s contour stamp e := by
  let c : Roughing ℝ := ⟨⟨8589934590, 2⟩, ⟨1, 1⟩, 0, 0, 1⟩
  have hne : through [(0, 0)] ≠ [] := by simp [through]
  have hfinish : c.finishDiameter (through [(0, 0)]) = 0 := by
    have hsmall : smallest (through [(0, 0)]) = 0 := by
      have hw : Widens (through [(0, 0)]) := by simp [Widens, through]
      exact hw.smallest_eq
    simp [finishDiameter, hsmall, c]
  have hratio : (c.start.x - c.finishDiameter (through [(0, 0)])) / (2 * c.cut.depth) =
      passLimit := by
    rw [hfinish]
    norm_num [c, passLimit]
  have hcount : c.passCount (through [(0, 0)]) = passLimit := by
    rw [passCount_eq, hratio, Nat.ceil_natCast, min_self]
    decide
  refine ⟨c, through [(0, 0)], one_pos, hne, hratio, fun s stamp => ?_⟩
  rw [exists_plan_iff hne, hcount, not_le]
  calc counterLimit < passLimit + 2 := by decide
    _ ≤ stamp.block + passLimit + 2 := by omega

end Roughing

end Lathe
