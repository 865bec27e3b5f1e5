import Lathe.Proofs.Motion.Stamps
import Lathe.Proofs.Trace.Distance

/-!
# How a path is subdivided

Playback advances by distance and shows the tool at points of the trace only, so a long move is cut
into parts before it gets there.  `Subdivision.spaces_subdivide` says that cutting is faithful and
tight: every point of the path is kept, the points that are put between two of them lie evenly on
the segment and are as few as the limit allows, and no two neighbours are further apart than it.

A path is cut move by move, so what is said about one move, from point `a` to point `b`, is said
once and carried along the path by `Subdivision.fillsIn_subdivide`.

The parts of a move are counted without a limit.  They are no more than the points that come out
(`Subdivision.ceil_le_length_subdivide`), so no limit on counts is met that leaves room for every
list of points.

* `Subdivision.parts` : the number of parts that a move is cut into.
* `Subdivision.CutsEvenly` : points cut a move evenly.
* `Subdivision.FillsIn` : a path with points filled in between its neighbours, move by move.
* `Subdivision.Spaces` : how a path is subdivided.
-/

namespace Lathe

namespace Subdivision

variable {limit : ℝ} {a b : Point ℝ}

theorem inPlane_between (a b : Point ℝ) (t : ℝ) : (between a b t).inPlane =
    AffineMap.lineMap a.inPlane b.inPlane t := by
  rw [AffineMap.lineMap_apply]
  apply Complex.ext <;> simp [Position.inPlane, between] <;> ring

/-- Points on one move are as far apart as they divide it. -/
theorem distance_between_between (a b : Point ℝ) (s t : ℝ) :
    (between a b s).distance (between a b t) = |s - t| * a.distance b := by
  simp only [Point.distance, Position.distance_eq_dist, inPlane_between]
  rw [dist_lineMap_lineMap, Real.dist_eq]

theorem toPosition_between_zero (a b : Point ℝ) :
    (between a b 0).toPosition = a.toPosition := by
  change (⟨a.x + (b.x - a.x) * 0, a.z + (b.z - a.z) * 0⟩ : Position ℝ) = a.toPosition
  rw [mul_zero, mul_zero, add_zero, add_zero]

theorem toPosition_between_one (a b : Point ℝ) :
    (between a b 1).toPosition = b.toPosition := by
  change (⟨a.x + (b.x - a.x) * 1, a.z + (b.z - a.z) * 1⟩ : Position ℝ) = b.toPosition
  rw [mul_one, mul_one, add_sub_cancel, add_sub_cancel]

/-! ### One move -/

/-- The number of parts that a move is cut into. -/
noncomputable def parts (limit : ℝ) (a b : Point ℝ) : ℕ :=
  max 1 ⌈a.distance b / limit⌉₊

theorem one_le_parts (limit : ℝ) (a b : Point ℝ) : 1 ≤ parts limit a b := le_max_left _ _

theorem parts_ne_zero : (parts limit a b : ℝ) ≠ 0 :=
  Nat.cast_ne_zero.2 (Nat.one_le_iff_ne_zero.1 (one_le_parts limit a b))

/-- No part is longer than the limit. -/
theorem distance_div_parts_le (h : 0 < limit) : a.distance b / parts limit a b ≤ limit := by
  have hceil : a.distance b / limit ≤ parts limit a b :=
    (Nat.le_ceil _).trans (Nat.cast_le.2 (le_max_right _ _))
  rw [div_le_iff₀ h] at hceil
  rw [div_le_iff₀ (by exact_mod_cast one_le_parts limit a b), mul_comm]
  exact hceil

/-- The points that cut a move divide it evenly. -/
theorem inserted_eq (h : 0 < limit) : inserted limit a b =
    (List.range' 1 (parts limit a b - 1)).map fun k : ℕ => between a b (k / parts limit a b) := by
  unfold inserted
  dsimp only
  split_ifs with hlt
  · have hone : 1 ≤ ⌈a.distance b / limit⌉₊ := Nat.one_le_ceil_iff.2 (div_pos (h.trans hlt) h)
    have hparts : parts limit a b = ⌈a.distance b / limit⌉₊ := max_eq_right hone
    rw [hparts]
    rfl
  · have hceil : ⌈a.distance b / limit⌉₊ ≤ 1 := by
      rw [Nat.ceil_le, Nat.cast_one, div_le_one h]
      exact not_lt.1 hlt
    rw [parts, max_eq_left hceil]
    rfl

/-- The places on the way of a move, both ends included, divide it evenly. -/
theorem map_toPosition_inserted (h : 0 < limit) :
    (a :: (inserted limit a b ++ [b])).map Point.toPosition =
      (List.range (parts limit a b + 1)).map fun k : ℕ =>
        (between a b (k / parts limit a b)).toPosition := by
  obtain ⟨n, hn⟩ := Nat.exists_eq_add_of_le' (one_le_parts limit a b)
  have hends : List.range (parts limit a b + 1) =
      0 :: (List.range' 1 (parts limit a b - 1) ++ [parts limit a b]) := by
    rw [hn, List.range_eq_range', List.range'_succ, List.range'_1_concat, Nat.add_sub_cancel,
      Nat.add_comm 1 n]
  rw [hends, inserted_eq h]
  simp only [List.map_cons, List.map_append, List.map_map, List.map_nil, Nat.cast_zero, zero_div,
    div_self parts_ne_zero, toPosition_between_zero, toPosition_between_one]
  rfl

/-- Each part of a move has its share of the distance. -/
theorem distance_part (k : ℕ) :
    (between a b (k / parts limit a b)).distance (between a b ((k + 1 : ℕ) / parts limit a b)) =
      a.distance b / parts limit a b := by
  rw [distance_between_between, ← sub_div, Nat.cast_succ, sub_add_cancel_left, neg_div, abs_neg,
    abs_of_nonneg (by positivity), one_div_mul_eq_div]

/-- **A move is cut into parts no longer than the limit.** -/
theorem isChain_inserted (h : 0 < limit) :
    (a :: (inserted limit a b ++ [b])).IsChain fun p q => p.distance q ≤ limit := by
  have hplaces : ((a :: (inserted limit a b ++ [b])).map Point.toPosition).IsChain fun p q =>
      p.distance q ≤ limit := by
    rw [map_toPosition_inserted h, List.isChain_map, List.isChain_range_succ]
    intro k _
    exact (distance_part k).trans_le (distance_div_parts_le h)
  exact (List.isChain_map _).1 hplaces

/-- **Fewer points do not do.**  A way of short parts is at least as long as the move. -/
theorem distance_le_of_isChain {others : List (Point ℝ)}
    (h : (a :: (others ++ [b])).IsChain fun p q => p.distance q ≤ limit) :
    a.distance b ≤ (others.length + 1 : ℕ) * limit := by
  induction others generalizing a with
  | nil => simpa using h
  | cons c others ih =>
    obtain ⟨hac, hcb⟩ := List.isChain_cons_cons.1 h
    have htriangle := a.distance_triangle c b
    have hrest := ih hcb
    rw [List.length_cons]
    push_cast at hrest ⊢
    linarith

theorem parts_le_of_isChain (h : 0 < limit) {others : List (Point ℝ)}
    (hchain : (a :: (others ++ [b])).IsChain fun p q => p.distance q ≤ limit) :
    parts limit a b ≤ others.length + 1 := by
  refine max_le (Nat.succ_le_succ (Nat.zero_le _)) (Nat.ceil_le.2 ?_)
  rw [div_le_iff₀ h]
  exact distance_le_of_isChain hchain

/-- The points `mid` cut the move from `a` to `b` into equal parts no longer than the limit, and are
as few as possible. -/
structure CutsEvenly (limit : ℝ) (a b : Point ℝ) (mid : List (Point ℝ)) : Prop where
  /-- There is one point less than there are parts. -/
  length_eq : mid.length = max 1 ⌈a.distance b / limit⌉₊ - 1
  /-- They lie on the segment, evenly spaced, and are stamped like the point it leads to. -/
  place_eq : ∀ (k : ℕ) q, mid[k]? = some q → q = b.movedTo
    ⟨a.x + (b.x - a.x) * ((k + 1) / (mid.length + 1)),
      a.z + (b.z - a.z) * ((k + 1) / (mid.length + 1))⟩
  /-- No neighbours are further apart than the limit. -/
  isChain : (a :: (mid ++ [b])).IsChain fun p q => p.distance q ≤ limit
  /-- Whatever points are put between instead, there are no fewer of them. -/
  least : ∀ others : List (Point ℝ),
    (a :: (others ++ [b])).IsChain (fun p q => p.distance q ≤ limit) → mid.length ≤ others.length

theorem length_inserted (h : 0 < limit) :
    (inserted limit a b).length = parts limit a b - 1 := by
  rw [inserted_eq h, List.length_map, List.length_range']

/-- **Every move is cut evenly.** -/
theorem cutsEvenly_inserted (h : 0 < limit) (a b : Point ℝ) :
    CutsEvenly limit a b (inserted limit a b) := by
  have hlength := length_inserted (a := a) (b := b) h
  refine ⟨hlength, fun k q hq => ?_, isChain_inserted h, fun others hchain => ?_⟩
  · have hparts : ((inserted limit a b).length + 1 : ℝ) = parts limit a b := by
      rw [hlength, Nat.cast_sub (one_le_parts limit a b), Nat.cast_one, sub_add_cancel]
    rw [hparts]
    rw [inserted_eq h, List.getElem?_map, Option.map_eq_some_iff] at hq
    obtain ⟨i, hi, rfl⟩ := hq
    obtain ⟨_, rfl⟩ := List.getElem?_eq_some_iff.1 hi
    rw [List.getElem_range', Nat.one_mul, Nat.add_comm, Nat.cast_succ]
    rfl
  · have := parts_le_of_isChain h hchain
    omega

/-! ### Paths -/

/-- A path with points filled in between neighbours; `R a b mid` says what may stand between `a` and
`b`. -/
inductive FillsIn {α : Type} (R : Point α → Point α → List (Point α) → Prop) :
    List (Point α) → List (Point α) → Prop
  | nil : FillsIn R [] []
  | single (a : Point α) : FillsIn R [a] [a]
  | cons {a b : Point α} {rest mid more : List (Point α)} (hmid : R a b mid)
      (hrest : FillsIn R (b :: rest) (b :: more)) :
      FillsIn R (a :: b :: rest) (a :: (mid ++ b :: more))

namespace FillsIn

variable {α : Type} {R : Point α → Point α → List (Point α) → Prop} {path out : List (Point α)}

/-- A path is kept with all its points. -/
theorem sublist (h : FillsIn R path out) : path.Sublist out := by
  induction h with
  | nil => exact .slnil
  | single a => exact .refl _
  | cons _ _ ih => exact (ih.trans (List.sublist_append_right _ _)).cons_cons _

theorem head?_eq (h : FillsIn R path out) : out.head? = path.head? := by
  cases h <;> rfl

theorem getLast?_eq (h : FillsIn R path out) : out.getLast? = path.getLast? := by
  induction h with
  | nil => rfl
  | single a => rfl
  | @cons a b rest mid more _ _ ih =>
    rw [← List.cons_append, List.getLast?_append_of_ne_nil _ (List.cons_ne_nil _ _), ih,
      List.getLast?_cons_cons]

/-- A relation along every filled move is one along the path. -/
theorem isChain {S : Point α → Point α → Prop}
    (h : FillsIn (fun a b mid => (a :: (mid ++ [b])).IsChain S) path out) : out.IsChain S := by
  induction h with
  | nil => exact .nil
  | single a => exact .singleton a
  | @cons a b rest mid more hmid _ ih =>
    rw [← List.cons_append, List.isChain_split]
    exact ⟨hmid, ih⟩

end FillsIn

section

variable {α : Type} [Scalar α] {limit : α} {path : List (Point α)}

theorem subdivide_of_not_isPositive (h : ¬ Scalar.isPositive limit = true) :
    subdivide limit path = path := by
  cases path with
  | nil => rfl
  | cons a rest => exact if_neg h

theorem subdivide_singleton (limit : α) (a : Point α) : subdivide limit [a] = [a] := by
  unfold subdivide
  dsimp only
  split_ifs <;> rfl

theorem subdivide_cons_cons (h : Scalar.isPositive limit = true) (a b : Point α)
    (rest : List (Point α)) : subdivide limit (a :: b :: rest) =
      a :: (inserted limit a b ++ subdivide limit (b :: rest)) := by
  simp [subdivide, h]

/-- **Subdividing a path fills in what is inserted into its moves.** -/
theorem fillsIn_subdivide {R : Point α → Point α → List (Point α) → Prop}
    (h : Scalar.isPositive limit = true) (hR : ∀ a b, R a b (inserted limit a b))
    (path : List (Point α)) : FillsIn R path (subdivide limit path) := by
  induction path with
  | nil => exact .nil
  | cons a rest ih =>
    cases rest with
    | nil =>
      rw [subdivide_singleton]
      exact .single a
    | cons b rest =>
      obtain ⟨more, heq, -⟩ := subdivide_cons limit b rest
      rw [heq] at ih
      rw [subdivide_cons_cons h, heq]
      exact .cons (hR a b) ih

/-- A path without long moves is left as it is. -/
theorem subdivide_eq_self (h : path.IsChain fun a b => ¬ limit < a.distance b) :
    subdivide limit path = path := by
  by_cases hlimit : Scalar.isPositive limit = true
  · induction path with
    | nil => rfl
    | cons a rest ih =>
      cases rest with
      | nil => exact subdivide_singleton limit a
      | cons b rest =>
        obtain ⟨hab, hrest⟩ := List.isChain_cons_cons.1 h
        rw [subdivide_cons_cons hlimit, ih hrest, inserted, if_neg hab, List.nil_append]
  · exact subdivide_of_not_isPositive hlimit

end

/-- No move is cut into more parts than there are points in the end. -/
theorem FillsIn.ceil_le_length {limit : ℝ} {path out : List (Point ℝ)} {a b : Point ℝ}
    (h : FillsIn (CutsEvenly limit) path out) (hab : (a, b) ∈ path.zip path.tail) :
    ⌈a.distance b / limit⌉₊ ≤ out.length := by
  induction h with
  | nil => cases hab
  | single c => cases hab
  | @cons c d rest mid more hmid _ ih =>
    rw [List.length_cons, List.length_append]
    rw [List.tail_cons, List.zip_cons_cons] at hab
    rcases List.mem_cons.1 hab with heq | hab
    · obtain ⟨rfl, rfl⟩ := Prod.mk.inj heq
      have hparts := le_max_right 1 ⌈a.distance b / limit⌉₊
      have := hmid.length_eq
      omega
    · have := ih hab
      omega

/-- **Parts are counted in full wherever there is a list of the points.** -/
theorem ceil_le_length_subdivide {limit : ℝ} (h : 0 < limit) {path : List (Point ℝ)}
    {a b : Point ℝ} (hab : (a, b) ∈ path.zip path.tail) :
    ⌈a.distance b / limit⌉₊ ≤ (subdivide limit path).length :=
  (fillsIn_subdivide (Scalar.isPositive_real.2 h) (cutsEvenly_inserted h) path).ceil_le_length hab

/-- A path out of another by cutting its long moves. -/
structure Spaces (limit : ℝ) (path out : List (Point ℝ)) : Prop where
  /-- The path is kept, point by point. -/
  sublist : path.Sublist out
  /-- Its first point stays the first. -/
  head?_eq : out.head? = path.head?
  /-- Its last point stays the last. -/
  getLast?_eq : out.getLast? = path.getLast?
  /-- Every move of it is cut evenly, with as few points as possible. -/
  fillsIn : FillsIn (CutsEvenly limit) path out
  /-- No neighbours are further apart than the limit. -/
  isChain : out.IsChain fun a b => a.distance b ≤ limit
  /-- Cutting once more changes nothing. -/
  settled : subdivide limit out = out

/-- **Subdividing is faithful and tight.**  Whatever the path and the positive limit: the path is
kept with its first and its last point, and every move of it is cut into equal parts by the fewest
points that leave no neighbours further apart than the limit, each stamped like the point that the
move leads to.  So no neighbours are, and subdividing once more changes nothing. -/
theorem spaces_subdivide {limit : ℝ} (h : 0 < limit) (path : List (Point ℝ)) :
    Spaces limit path (subdivide limit path) := by
  have hlimit : Scalar.isPositive limit = true := Scalar.isPositive_real.2 h
  have hcut := fillsIn_subdivide hlimit (cutsEvenly_inserted h) path
  have hshort : (subdivide limit path).IsChain fun a b => a.distance b ≤ limit :=
    (fillsIn_subdivide hlimit (fun a b => isChain_inserted h) path).isChain
  exact ⟨hcut.sublist, hcut.head?_eq, hcut.getLast?_eq, hcut, hshort,
    subdivide_eq_self (hshort.imp fun _ _ => not_lt.2)⟩

/-- A long taper with an M code at its end, a mark on the spot, and a move as long as the limit. -/
noncomputable def taper : List (Point ℝ) :=
  [.make ⟨20.0, 0⟩ .start 1 0 (some 0) none, .make ⟨26.0, -4.0⟩ .feed 2 0.2 (some 1) (some ⟨8⟩),
    .make ⟨26.0, -4.0⟩ .rapid 3 0.2 (some 2) (some ⟨9⟩),
    .make ⟨26.0, -6.0⟩ .feed 4 0.2 (some 3) none]

theorem spaces_subdivide_taper :
    (0 : ℝ) < 2 ∧ (subdivide 2 taper).length = 6 ∧ Spaces 2 taper (subdivide 2 taper) := by
  have hlimit : (0 : ℝ) < 2 := two_pos
  refine ⟨hlimit, ?_, spaces_subdivide hlimit taper⟩
  rw [taper, subdivide_cons_cons (Scalar.isPositive_real.2 hlimit),
    subdivide_cons_cons (Scalar.isPositive_real.2 hlimit),
    subdivide_cons_cons (Scalar.isPositive_real.2 hlimit), subdivide_singleton]
  simp only [List.length_cons, List.length_append, length_inserted hlimit]
  norm_num [parts, Point.distance, Position.distance_eq_sqrt, Point.make]

end Subdivision

end Lathe
