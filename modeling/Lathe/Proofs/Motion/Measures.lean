import Lathe.Proofs.Motion.Polyline
import Lathe.Proofs.Motion.Spacing

/-!
# Measures of a subdivided path

The bounds of a trace fit a view to it, and its length is reported to the operator.  Both are read
off the finished trace, whose long moves have been cut; `Trace.measures_subdivide` says that they
are those of the path as it was programmed.  Points that are inserted into a move lie on its
segment, which a box that holds both ends holds too, and the parts of a move are together as long
as it is.

* `Bounds.Hugs` : the box is the least one around points.  `Trace.bounds?_ofList_eq_some_iff` says
  that the bounds of a trace are this box.
* `travelled` : the distance from place to place.  `Trace.length_ofList` says that the length of a
  trace is this distance.
-/

namespace Lathe

/-! ### The least box -/

namespace Bounds

/-- The box holds a place. -/
structure Holds (b : Bounds ℝ) (p : Position ℝ) : Prop where
  /-- Its diameter is in the range. -/
  x_mem : p.x ∈ Set.Icc b.minX b.maxX
  /-- So is its place along the axis. -/
  z_mem : p.z ∈ Set.Icc b.minZ b.maxZ

/-- The box is the least one around points: it holds them all, and there is one on each side. -/
structure Hugs (b : Bounds ℝ) (points : List (Point ℝ)) : Prop where
  /-- It holds every point. -/
  holds : ∀ q ∈ points, b.Holds q.toPosition
  /-- The smallest diameter is that of a point. -/
  minX_mem : ∃ q ∈ points, q.x = b.minX
  /-- So is the largest. -/
  maxX_mem : ∃ q ∈ points, q.x = b.maxX
  /-- The least place along the axis is that of a point. -/
  minZ_mem : ∃ q ∈ points, q.z = b.minZ
  /-- So is the greatest. -/
  maxZ_mem : ∃ q ∈ points, q.z = b.maxZ

variable {b b' : Bounds ℝ} {p q : Position ℝ} {points more : List (Point ℝ)}

/-- With two places a box holds the segment between them. -/
theorem Holds.of_onSegment {p' : Position ℝ} (h : b.Holds p) (h' : b.Holds p')
    (hq : Position.OnSegment p p' q) : b.Holds q := by
  obtain ⟨t, h0, h1, hx, hz⟩ := hq
  have ht : t ∈ Set.Icc (0 : ℝ) 1 := ⟨h0, h1⟩
  rw [← smul_eq_mul] at hx hz
  refine ⟨?_, ?_⟩
  · rw [hx]
    exact (convex_Icc _ _).add_smul_sub_mem h.x_mem h'.x_mem ht
  · rw [hz]
    exact (convex_Icc _ _).add_smul_sub_mem h.z_mem h'.z_mem ht

theorem holds_including (b : Bounds ℝ) (q : Position ℝ) : (b.including q).Holds q := by
  simp only [including, Scalar.min_real, Scalar.max_real]
  exact ⟨⟨min_le_right _ _, le_max_right _ _⟩, ⟨min_le_right _ _, le_max_right _ _⟩⟩

theorem Holds.including (h : b.Holds p) (q : Position ℝ) : (b.including q).Holds p := by
  obtain ⟨⟨hx, hx'⟩, ⟨hz, hz'⟩⟩ := h
  simp only [Bounds.including, Scalar.min_real, Scalar.max_real]
  exact ⟨⟨min_le_of_left_le hx, le_max_of_le_left hx'⟩,
    ⟨min_le_of_left_le hz, le_max_of_le_left hz'⟩⟩

/-- A least box is inside every other box around the points. -/
theorem Hugs.within (h : b.Hugs points) (h' : b'.Hugs points) :
    (b'.minX ≤ b.minX ∧ b.maxX ≤ b'.maxX) ∧ b'.minZ ≤ b.minZ ∧ b.maxZ ≤ b'.maxZ := by
  obtain ⟨q₁, hq₁, hminX⟩ := h.minX_mem
  obtain ⟨q₂, hq₂, hmaxX⟩ := h.maxX_mem
  obtain ⟨q₃, hq₃, hminZ⟩ := h.minZ_mem
  obtain ⟨q₄, hq₄, hmaxZ⟩ := h.maxZ_mem
  exact ⟨⟨hminX ▸ (h'.holds q₁ hq₁).x_mem.1, hmaxX ▸ (h'.holds q₂ hq₂).x_mem.2⟩,
    hminZ ▸ (h'.holds q₃ hq₃).z_mem.1, hmaxZ ▸ (h'.holds q₄ hq₄).z_mem.2⟩

/-- There is only one least box. -/
theorem Hugs.unique (h : b.Hugs points) (h' : b'.Hugs points) : b = b' := by
  obtain ⟨⟨h₁, h₂⟩, h₃, h₄⟩ := h.within h'
  obtain ⟨⟨h₁', h₂'⟩, h₃', h₄'⟩ := h'.within h
  cases b
  cases b'
  congr
  · exact le_antisymm h₁' h₁
  · exact le_antisymm h₂ h₂'
  · exact le_antisymm h₃' h₃
  · exact le_antisymm h₄ h₄'

theorem hugs_ofPosition (q : Point ℝ) : (ofPosition q.toPosition).Hugs [q] := by
  have hq : q ∈ [q] := List.mem_singleton_self q
  refine ⟨fun r hr => ?_, ⟨q, hq, rfl⟩, ⟨q, hq, rfl⟩, ⟨q, hq, rfl⟩, ⟨q, hq, rfl⟩⟩
  rw [List.mem_singleton.1 hr]
  exact ⟨⟨le_rfl, le_rfl⟩, ⟨le_rfl, le_rfl⟩⟩

/-- A side stays where a point is if it is not moved, or moved to that of the new point. -/
theorem exists_mem_concat {f : Point ℝ → ℝ} {u v : ℝ} (h : ∃ r ∈ points, f r = u) {q : Point ℝ}
    (hv : v = u ∨ v = f q) : ∃ r ∈ points ++ [q], f r = v := by
  obtain ⟨r, hr, rfl⟩ := h
  obtain rfl | rfl := hv
  · exact ⟨r, List.mem_append_left _ hr, rfl⟩
  · exact ⟨q, List.mem_append_right _ (List.mem_singleton_self q), rfl⟩

/-- **The least box grows to hold one point more.** -/
theorem Hugs.including (h : b.Hugs points) (q : Point ℝ) :
    (b.including q.toPosition).Hugs (points ++ [q]) := by
  have hmin : ∀ u v : ℝ, Scalar.min u v = u ∨ Scalar.min u v = v := fun u v => by
    rw [Scalar.min_real]
    exact min_choice u v
  have hmax : ∀ u v : ℝ, Scalar.max u v = u ∨ Scalar.max u v = v := fun u v => by
    rw [Scalar.max_real]
    exact max_choice u v
  refine ⟨fun r hr => ?_, exists_mem_concat h.minX_mem (hmin _ _),
    exists_mem_concat h.maxX_mem (hmax _ _), exists_mem_concat h.minZ_mem (hmin _ _),
    exists_mem_concat h.maxZ_mem (hmax _ _)⟩
  obtain hr | hr := List.mem_append.1 hr
  · exact (h.holds r hr).including q.toPosition
  · rw [List.mem_singleton.1 hr]
    exact holds_including b q.toPosition

/-- The least box around the points seen so far grows to that around all. -/
theorem Hugs.foldl (h : b.Hugs points) :
    (more.foldl (fun b q => b.including q.toPosition) b).Hugs (points ++ more) := by
  induction more generalizing b points with
  | nil => simpa using h
  | cons q more ih =>
    rw [List.foldl_cons, List.append_cons]
    exact ih (h.including q)

end Bounds

namespace Trace

variable {path : List (Point ℝ)} {b : Bounds ℝ}

/-- **The bounds of a trace are the least box around its points.** -/
theorem bounds?_ofList_eq_some_iff : (ofList path).bounds? = some b ↔ b.Hugs path := by
  cases path with
  | nil =>
    refine ⟨nofun, fun h => ?_⟩
    obtain ⟨q, hq, -⟩ := h.minX_mem
    cases hq
  | cons first rest =>
    have hhugs : (rest.foldl (fun (b : Bounds ℝ) q => b.including q.toPosition)
        (Bounds.ofPosition first.toPosition)).Hugs (first :: rest) :=
      (Bounds.hugs_ofPosition first).foldl
    exact Option.some_inj.trans ⟨fun h => h ▸ hhugs, fun h => hhugs.unique h⟩

theorem bounds?_ofList_eq_none_iff : (ofList path).bounds? = none ↔ path = [] := by
  cases path with
  | nil => exact ⟨fun _ => rfl, fun _ => rfl⟩
  | cons first rest => exact ⟨nofun, nofun⟩

end Trace

/-! ### The length -/

/-- The distance travelled from place to place. -/
noncomputable def travelled : List (Position ℝ) → ℝ
  | p :: q :: rest => p.distance q + travelled (q :: rest)
  | _ => 0

section

variable {p q : Position ℝ} {before rest : List (Position ℝ)}

theorem travelled_cons_cons : travelled (p :: q :: rest) = p.distance q + travelled (q :: rest) :=
  rfl

/-- A way is as long as its two halves. -/
theorem travelled_append : travelled (before ++ p :: rest) =
    travelled (before ++ [p]) + travelled (p :: rest) := by
  induction before with
  | nil => simp [travelled]
  | cons r before ih =>
    cases before with
    | nil => simp [travelled]
    | cons r' before =>
      simp only [List.cons_append, travelled_cons_cons] at ih ⊢
      rw [ih, add_assoc]

/-- A way of equal steps. -/
theorem travelled_map_range {f : ℕ → Position ℝ} {d : ℝ}
    (h : ∀ k, (f k).distance (f (k + 1)) = d) (n : ℕ) :
    travelled ((List.range (n + 1)).map f) = n * d := by
  induction n with
  | zero => simp [travelled]
  | succ n ih =>
    rw [List.range_succ, List.map_append, List.map_singleton] at ih
    have hrange : (List.range (n + 1 + 1)).map f = (List.range n).map f ++ [f n, f (n + 1)] := by
      simp [List.range_succ]
    rw [hrange, travelled_append, ih, travelled_cons_cons, h]
    simp [travelled]
    ring

end

theorem foldl_zip_tail (first : Point ℝ) (rest : List (Point ℝ)) (sum : ℝ) :
    ((first :: rest).zip rest).foldl (fun sum move => sum + move.1.distance move.2) sum =
      sum + travelled ((first :: rest).map Point.toPosition) := by
  induction rest generalizing first sum with
  | nil => simp [travelled]
  | cons b rest ih =>
    rw [List.zip_cons_cons, List.foldl_cons, ih, List.map_cons, List.map_cons, List.map_cons,
      travelled_cons_cons, ← add_assoc]
    rfl

/-- The length of a trace is what the tool travels along it. -/
theorem Trace.length_ofList (path : List (Point ℝ)) :
    (Trace.ofList path).length = travelled (path.map Point.toPosition) := by
  cases path with
  | nil => exact Scalar.zero_real
  | cons first rest =>
    have hfold := foldl_zip_tail first rest 0.0
    rwa [Scalar.zero_real, zero_add, ← Scalar.zero_real] at hfold

namespace Subdivision

variable {limit : ℝ} {path out : List (Point ℝ)} {a b q : Point ℝ}

/-- Points that cut a move are on the way. -/
theorem onSegment_of_mem_inserted (h : 0 < limit) (hq : q ∈ inserted limit a b) :
    Position.OnSegment a.toPosition b.toPosition q.toPosition := by
  rw [inserted_eq h] at hq
  obtain ⟨k, hk, rfl⟩ := List.mem_map.1 hq
  have hle : (k : ℝ) ≤ parts limit a b := by
    obtain ⟨_, hlt⟩ := List.mem_range'_1.1 hk
    have := one_le_parts limit a b
    exact_mod_cast (by omega : k ≤ parts limit a b)
  refine ⟨k / parts limit a b, by positivity, div_le_one_of_le₀ hle (by positivity), ?_, ?_⟩
  · change a.x + (b.x - a.x) * _ = _
    ring
  · change a.z + (b.z - a.z) * _ = _
    ring

/-- The way of a move is as long as the move. -/
theorem travelled_inserted (h : 0 < limit) :
    travelled ((a :: (inserted limit a b ++ [b])).map Point.toPosition) = a.distance b := by
  rw [map_toPosition_inserted h, travelled_map_range distance_part]
  exact mul_div_cancel₀ _ parts_ne_zero

namespace FillsIn

theorem travelled_eq (h : FillsIn (fun a b mid =>
    travelled ((a :: (mid ++ [b])).map Point.toPosition) = a.distance b) path out) :
    travelled (out.map Point.toPosition) = travelled (path.map Point.toPosition) := by
  induction h with
  | nil => rfl
  | single a => rfl
  | @cons a b rest mid more hmid _ ih =>
    simp only [List.map_cons, List.map_append, List.map_nil] at hmid ih ⊢
    rw [← List.cons_append, travelled_append, List.cons_append, hmid, ih]
    rfl

/-- A path along whose moves points are filled in has every point on a segment of the path. -/
theorem exists_onSegment (h : FillsIn (fun a b mid => ∀ q ∈ mid,
    Position.OnSegment a.toPosition b.toPosition q.toPosition) path out) (hq : q ∈ out) :
    ∃ a ∈ path, ∃ b ∈ path, Position.OnSegment a.toPosition b.toPosition q.toPosition := by
  induction h with
  | nil => cases hq
  | single a =>
    obtain rfl := List.mem_singleton.1 hq
    exact ⟨q, hq, q, hq, Position.onSegment_left _ _⟩
  | @cons a b rest mid more hmid _ ih =>
    have ha : a ∈ a :: b :: rest := List.mem_cons_self
    have hb : b ∈ a :: b :: rest := List.mem_cons_of_mem _ List.mem_cons_self
    obtain rfl | hq := List.mem_cons.1 hq
    · exact ⟨q, ha, q, ha, Position.onSegment_left _ _⟩
    obtain hq | hq := List.mem_append.1 hq
    · exact ⟨a, ha, b, hb, hmid q hq⟩
    · obtain ⟨c, hc, d, hd, hcd⟩ := ih hq
      exact ⟨c, List.mem_cons_of_mem _ hc, d, List.mem_cons_of_mem _ hd, hcd⟩

end FillsIn

/-- **The least box around a path is that around the subdivided path.** -/
theorem hugs_subdivide {box : Bounds ℝ} (h : 0 < limit) (hbox : box.Hugs path) :
    box.Hugs (subdivide limit path) := by
  have hways : FillsIn (fun a b mid => ∀ q ∈ mid,
      Position.OnSegment a.toPosition b.toPosition q.toPosition) path (subdivide limit path) :=
    fillsIn_subdivide (Scalar.isPositive_real.2 h) (fun a b q => onSegment_of_mem_inserted h) path
  have hkept : ∀ q, q ∈ path → q ∈ subdivide limit path := fun q => hways.sublist.mem
  refine ⟨fun q hq => ?_, ?_, ?_, ?_, ?_⟩
  · obtain ⟨a, ha, b, hb, hab⟩ := hways.exists_onSegment hq
    exact (hbox.holds a ha).of_onSegment (hbox.holds b hb) hab
  · exact hbox.minX_mem.imp fun q => And.imp_left (hkept q)
  · exact hbox.maxX_mem.imp fun q => And.imp_left (hkept q)
  · exact hbox.minZ_mem.imp fun q => And.imp_left (hkept q)
  · exact hbox.maxZ_mem.imp fun q => And.imp_left (hkept q)

end Subdivision

namespace Trace

open Subdivision

variable {limit : ℝ}

theorem bounds?_subdivide (h : 0 < limit) (path : List (Point ℝ)) :
    (ofList (subdivide limit path)).bounds? = (ofList path).bounds? := by
  cases hbox : (ofList path).bounds? with
  | none =>
    rw [bounds?_ofList_eq_none_iff.1 hbox]
    rfl
  | some box =>
    rw [bounds?_ofList_eq_some_iff] at hbox ⊢
    exact hugs_subdivide h hbox

theorem length_subdivide (h : 0 < limit) (path : List (Point ℝ)) :
    (ofList (subdivide limit path)).length = (ofList path).length := by
  rw [length_ofList, length_ofList]
  exact (fillsIn_subdivide (Scalar.isPositive_real.2 h) (fun a b => travelled_inserted h)
    path).travelled_eq

/-- **Subdividing changes neither the bounds nor the length of a path.**  Whatever the limit: the
bounds are the same, and so is the length.  The bounds are the least box around the points: they
hold every point and each of their sides is where a point is, and there are none exactly if there
are no points. -/
theorem measures_subdivide (limit : ℝ) (path : List (Point ℝ)) :
    (ofList (subdivide limit path)).bounds? = (ofList path).bounds? ∧
      (ofList (subdivide limit path)).length = (ofList path).length ∧
      (∀ box, (ofList path).bounds? = some box ↔ box.Hugs path) ∧
      ((ofList path).bounds? = none ↔ path = []) := by
  by_cases h : 0 < limit
  · exact ⟨bounds?_subdivide h path, length_subdivide h path,
      fun _ => bounds?_ofList_eq_some_iff, bounds?_ofList_eq_none_iff⟩
  -- a limit that is not positive cuts nothing
  · rw [subdivide_of_not_isPositive (mt Scalar.isPositive_real.1 h)]
    exact ⟨rfl, rfl, fun _ => bounds?_ofList_eq_some_iff, bounds?_ofList_eq_none_iff⟩

end Trace

end Lathe
