import Lathe.Motion.Arc
import Mathlib.Data.List.Basic
import Mathlib.Order.MinMax
import Mathlib.Order.Nat

/-!
# The places of an arc

`Arc.polyline` puts the two ends of an arc where they were given and only computes the places
between them.  So whatever the scalars, it starts and ends exactly there, and where there is no arc
to solve or only one step it is the straight move; otherwise it has as many steps as the settings
ask for (`Arc.Outlines`).

There is a list of the places exactly if there is no arc or its steps are fewer than the places that
a list can hold (`Arc.polyline?_eq_some_iff`).  These are fewer than the steps that can be counted,
so where there is a list the steps have been counted in full (`Arc.ceil_le_stepCount`).
-/

namespace Lathe

namespace Arc

variable {α : Type} [Scalar α] {s : ArcSettings α} {a b : Position α} {radius : α}
  {rotation : Rotation} {g : Arc α}

theorem one_le_stepCount (s : ArcSettings α) (sweep : α) : 1 ≤ stepCount s sweep :=
  Nat.le_max_right _ _

theorem minPoints_le_stepCount (s : ArcSettings α) (sweep : α) :
    s.minPoints.toNat ≤ stepCount s sweep :=
  (Nat.le_max_right _ _).trans (Nat.le_max_left _ _)

theorem min_ceil_le_stepCount (s : ArcSettings α) (sweep : α) :
    min countLimit (Scalar.ceil (Scalar.abs sweep / s.maxAngleStep)) ≤ stepCount s sweep :=
  (Nat.le_max_left _ _).trans (Nat.le_max_left _ _)

theorem stepCount_le (s : ArcSettings α) (sweep : α) : stepCount s sweep ≤ countLimit := by
  have hpoints : s.minPoints.toNat ≤ countLimit := Nat.le_pred_of_lt s.minPoints.toNat_lt
  exact max_le (max_le (Nat.min_le_left _ _) hpoints) (by decide)

/-- Below the largest count no step that the largest angle asks for is missing. -/
theorem ceil_le_stepCount {sweep : α} (h : stepCount s sweep < countLimit) :
    Scalar.ceil (Scalar.abs sweep / s.maxAngleStep) ≤ stepCount s sweep := by
  rcases min_le_iff.1 (min_ceil_le_stepCount s sweep) with hlimit | hceil
  · exact absurd hlimit (not_le.2 h)
  · exact hceil

theorem stepCount_lt_iff {sweep : α} {n : ℕ} (h1 : 1 < n) (hn : n ≤ countLimit) :
    stepCount s sweep < n ↔
      s.minPoints.toNat < n ∧ Scalar.ceil (Scalar.abs sweep / s.maxAngleStep) < n := by
  constructor
  · intro h
    exact ⟨(minPoints_le_stepCount s sweep).trans_lt h,
      (ceil_le_stepCount (h.trans_le hn)).trans_lt h⟩
  · rintro ⟨hpoints, hceil⟩
    exact max_lt (max_lt ((Nat.min_le_right _ _).trans_lt hceil) hpoints) h1

theorem length_interior (g : Arc α) (n : ℕ) : (g.interior n).length = n - 1 := by
  rw [interior, List.length_map, List.length_range']

theorem polyline_of_none (h : solve? s a b radius rotation = none) :
    polyline s a b radius rotation = [a, b] := by
  simp only [polyline, h]

theorem polyline_of_some (h : solve? s a b radius rotation = some g) :
    polyline s a b radius rotation = a :: (g.interior (stepCount s g.sweep) ++ [b]) := by
  simp only [polyline, h]

theorem length_polyline (h : solve? s a b radius rotation = some g) :
    (polyline s a b radius rotation).length = stepCount s g.sweep + 1 := by
  have := one_le_stepCount s g.sweep
  rw [polyline_of_some h, List.length_cons, List.length_append, length_interior,
    List.length_singleton]
  omega

/-- A polyline goes from one end to the other. -/
theorem exists_polyline_eq (s : ArcSettings α) (a b : Position α) (radius : α)
    (rotation : Rotation) : ∃ mid, polyline s a b radius rotation = a :: (mid ++ [b]) := by
  cases h : solve? s a b radius rotation with
  | none => exact ⟨[], polyline_of_none h⟩
  | some g => exact ⟨_, polyline_of_some h⟩

theorem head?_polyline : (polyline s a b radius rotation).head? = some a := by
  obtain ⟨mid, hmid⟩ := exists_polyline_eq s a b radius rotation
  rw [hmid, List.head?_cons]

theorem getLast?_polyline : (polyline s a b radius rotation).getLast? = some b := by
  obtain ⟨mid, hmid⟩ := exists_polyline_eq s a b radius rotation
  rw [hmid, ← List.cons_append, List.getLast?_concat]

/-- The straight move is what is left where there is no arc, or one step of it. -/
theorem polyline_eq_pair_iff : polyline s a b radius rotation = [a, b] ↔
    ∀ g, solve? s a b radius rotation = some g → stepCount s g.sweep = 1 := by
  cases h : solve? s a b radius rotation with
  | none => exact ⟨fun _ => nofun, fun _ => polyline_of_none h⟩
  | some g =>
    constructor
    · rintro hpair _ ⟨⟩
      have hlength := length_polyline h
      rw [hpair] at hlength
      exact (Nat.succ.inj hlength).symm
    · intro hone
      have hinterior : g.interior 1 = [] := rfl
      rw [polyline_of_some h, hone g rfl, hinterior, List.nil_append]

/-- A place between the ends, counted from the first end. -/
theorem getElem?_polyline (h : solve? s a b radius rotation = some g) {i : ℕ} (h0 : 0 < i)
    (hi : i < stepCount s g.sweep) : (polyline s a b radius rotation)[i]? =
      some (g.pointAt (g.angleAfter (stepCount s g.sweep) i)) := by
  obtain ⟨j, rfl⟩ := Nat.exists_eq_add_of_lt h0
  have hj : j < stepCount s g.sweep - 1 := by omega
  rw [Nat.zero_add] at hi ⊢
  rw [polyline_of_some h, List.getElem?_cons_succ,
    List.getElem?_append_left (by rwa [length_interior]), interior, List.getElem?_map,
    List.getElem?_range' hj]
  simp [Nat.add_comm]

/-- **When there is a list of the places**: there is no arc, or its steps are fewer than the places
that a list can hold. -/
theorem polyline?_eq_some_iff {path : List (Position α)} :
    polyline? s a b radius rotation = some path ↔ polyline s a b radius rotation = path ∧
      ∀ g, solve? s a b radius rotation = some g → stepCount s g.sweep < placeLimit := by
  unfold polyline?
  cases solve? s a b radius rotation with
  | none => simp
  | some g =>
    dsimp only
    split_ifs with hfits
    · constructor
      · intro h
        refine ⟨Option.some.inj h, ?_⟩
        rintro _ ⟨⟩
        exact hfits
      · rintro ⟨rfl, -⟩
        rfl
    · constructor
      · intro h
        cases h
      · rintro ⟨-, h⟩
        exact absurd (h g rfl) hfits

/-- How a path outlines the arc between two places, whatever the scalars. -/
structure Outlines (s : ArcSettings α) (a b : Position α) (radius : α)
    (rotation : Rotation) (path : List (Position α)) : Prop where
  /-- Its first place is the first end. -/
  head?_eq : path.head? = some a
  /-- Its last place is the last end. -/
  getLast?_eq : path.getLast? = some b
  /-- It is the straight move exactly if there is no arc or only one step. -/
  straight_iff : path = [a, b] ↔ solve? s a b radius rotation = none ∨
    ∃ g, solve? s a b radius rotation = some g ∧ stepCount s g.sweep = 1
  /-- It has one place more than there are steps. -/
  length_eq : ∀ g, solve? s a b radius rotation = some g → path.length = stepCount s g.sweep + 1
  /-- There are as many steps as the settings ask for, and at least one. -/
  steps_le : ∀ g, solve? s a b radius rotation = some g →
    max 1 s.minPoints.toNat ≤ stepCount s g.sweep

theorem outlines_polyline (s : ArcSettings α) (a b : Position α) (radius : α)
    (rotation : Rotation) : Outlines s a b radius rotation (polyline s a b radius rotation) := by
  refine ⟨head?_polyline, getLast?_polyline, ?_, fun g => length_polyline, fun g _ => ?_⟩
  · rw [polyline_eq_pair_iff]
    cases solve? s a b radius rotation with
    | none => simp
    | some g => simp
  · exact max_le (one_le_stepCount s g.sweep) (minPoints_le_stepCount s g.sweep)

/-- **When there is a list that outlines the arc.** -/
theorem exists_outlines_iff : (∃ path, polyline? s a b radius rotation = some path ∧
      Outlines s a b radius rotation path) ↔
    ∀ g, solve? s a b radius rotation = some g → stepCount s g.sweep < placeLimit := by
  constructor
  · rintro ⟨path, hpath, -⟩
    exact (polyline?_eq_some_iff.1 hpath).2
  · intro hfits
    exact ⟨_, polyline?_eq_some_iff.2 ⟨rfl, hfits⟩, outlines_polyline s a b radius rotation⟩

end Arc

end Lathe
