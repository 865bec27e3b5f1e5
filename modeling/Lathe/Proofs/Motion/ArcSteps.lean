import Lathe.Proofs.Motion.ArcCircle
import Lathe.Proofs.Motion.ArcPlaces
import Lathe.Settings.Tuning

/-!
# How an arc is cut into steps

A polyline outlines its arc whatever the scalars (`Arc.Outlines`).  Over the real numbers its steps
are small enough, and the places between the ends lie on the circle of the arc at equal angles
(`Arc.Rounds`).

Nothing in the polyline says that the ends are on that circle, for they are taken as given.  They
are if the radius reaches them, that is, if it is at least half the chord: then the places computed
for the first and the last angle would have been the ends (`Arc.pointAt_of_reaches`), and there is
no jump.

All this is so exactly if there is a list that holds the places (`Arc.draws_iff`).  Settings that
pass their check can ask for more places than that, and then even for more steps than are counted:
those that are counted do not make up the arc (`Arc.not_draws_tinySteps`).
-/

namespace Lathe

namespace Arc

open Real (pi)

/-! ### Places on the circle -/

variable {s : ArcSettings ℝ} {a b p : Position ℝ} {radius θ : ℝ} {rotation : Rotation} {g : Arc ℝ}

theorem toward_pointAt (g : Arc ℝ) (θ : ℝ) : g.toward (g.pointAt θ) =
    g.radius * (Complex.cos θ + Complex.sin θ * Complex.I) := by
  apply Complex.ext <;>
    simp [toward, pointAt, Scalar.two_real, Complex.cos_ofReal_re, Complex.sin_ofReal_re]

theorem distance_centre_pointAt (g : Arc ℝ) (θ : ℝ) :
    g.centre.distance (g.pointAt θ) = |g.radius| := by
  rw [← norm_toward, toward_pointAt, norm_mul, Complex.norm_real, Complex.norm_cos_add_sin_mul_I]
  simp

theorem norm_toward_sub (g : Arc ℝ) (a b : Position ℝ) :
    ‖g.toward a - g.toward b‖ = a.distance b := by
  rw [Position.distance_eq_sqrt, Complex.norm_eq_sqrt_sq_add_sq, add_comm]
  refine congrArg Real.sqrt (congrArg₂ (· + ·) ?_ ?_) <;>
    simp only [toward, Scalar.two_real, Complex.sub_re, Complex.sub_im] <;> ring

/-- A chord is no longer than its arc. -/
theorem distance_pointAt_le (g : Arc ℝ) (θ φ : ℝ) :
    (g.pointAt θ).distance (g.pointAt φ) ≤ |g.radius| * |θ - φ| := by
  have hfactor : g.toward (g.pointAt θ) - g.toward (g.pointAt φ) =
      g.radius * (Complex.exp (Complex.I * φ) *
        (Complex.exp (Complex.I * (θ - φ : ℝ)) - 1)) := by
    rw [toward_pointAt, toward_pointAt, Complex.cos_add_sin_I, Complex.cos_add_sin_I, mul_sub,
      ← Complex.exp_add]
    push_cast
    ring_nf
  rw [← norm_toward_sub g, hfactor, norm_mul, norm_mul, Complex.norm_exp_I_mul_ofReal, one_mul,
    Complex.norm_real, Real.norm_eq_abs]
  exact mul_le_mul_of_nonneg_left Real.norm_exp_I_mul_ofReal_sub_one_le (abs_nonneg _)

/-- Full turns do not change the place at an angle. -/
theorem pointAt_add_turns (g : Arc ℝ) (θ : ℝ) (k : ℤ) :
    g.pointAt (θ + k * (2 * pi)) = g.pointAt θ := by
  simp only [pointAt, Scalar.sin_real, Scalar.cos_real, Real.sin_add_int_mul_two_pi,
    Real.cos_add_int_mul_two_pi]

/-- A place as far from the centre as the radius is the place at its angle. -/
theorem pointAt_angleOf (h : g.centre.distance p = g.radius) : g.pointAt (g.angleOf p) = p := by
  apply g.toward_injective
  rw [toward_pointAt, ← h, ← norm_toward, angleOf_eq_arg, Complex.norm_mul_cos_add_sin_mul_I]

/-- The place at an angle is seen there from the centre, up to full turns. -/
theorem exists_angleOf_pointAt (h : 0 < g.radius) (θ : ℝ) :
    ∃ k : ℤ, g.angleOf (g.pointAt θ) = θ + k * (2 * pi) := by
  have hangle : (g.angleOf (g.pointAt θ) : Real.Angle) = θ := by
    have harg := Complex.arg_mul_cos_add_sin_mul_I_coe_angle h (θ : Real.Angle)
    rwa [Real.Angle.cos_coe, Real.Angle.sin_coe, Complex.ofReal_cos, Complex.ofReal_sin,
      ← toward_pointAt, ← angleOf_eq_arg] at harg
  obtain ⟨k, hk⟩ := Real.Angle.angle_eq_iff_two_pi_dvd_sub.1 hangle
  exact ⟨k, by linarith⟩

/-- Equal steps turn by equal angles. -/
theorem angleAfter_eq (g : Arc ℝ) (n i : ℕ) :
    g.angleAfter n i = g.startAngle + i * (g.sweep / n) := by
  rw [angleAfter, Scalar.ofNat_real, Scalar.ofNat_real]
  ring

theorem placeLimit_le_countLimit : placeLimit ≤ countLimit := by
  decide

/-- Steps that a list has room for are small enough. -/
theorem abs_sweep_le_steps (h : 0 < s.maxAngleStep) {sweep : ℝ}
    (hfits : stepCount s sweep < placeLimit) : |sweep| ≤ stepCount s sweep * s.maxAngleStep := by
  have hsteps : ⌈|sweep| / s.maxAngleStep⌉₊ ≤ stepCount s sweep :=
    ceil_le_stepCount (hfits.trans_le placeLimit_le_countLimit)
  have hceil : |sweep| / s.maxAngleStep ≤ stepCount s sweep :=
    (Nat.le_ceil _).trans (Nat.cast_le.2 hsteps)
  exact (div_le_iff₀ h).1 hceil

/-- **When a list has room for the steps**: neither the least number of them nor the largest angle
asks for more. -/
theorem stepCount_lt_placeLimit_iff (h : 0 < s.maxAngleStep) {sweep : ℝ} :
    stepCount s sweep < placeLimit ↔ s.minPoints.toNat < placeLimit ∧
      |sweep| ≤ (placeLimit - 1 : ℕ) * s.maxAngleStep := by
  have hceil : ⌈|sweep| / s.maxAngleStep⌉₊ < placeLimit ↔
      |sweep| ≤ (placeLimit - 1 : ℕ) * s.maxAngleStep := by
    rw [Nat.lt_iff_le_pred (by decide), Nat.ceil_le, div_le_iff₀ h]
  rw [stepCount_lt_iff (by decide) placeLimit_le_countLimit, Scalar.ceil_real, Scalar.abs_real,
    hceil]

/-- **A radius that reaches the ends puts them on the circle.** -/
theorem distance_centre_of_reaches (hne : a ≠ b) (hreach : a.distance b / 2 ≤ |radius|)
    (h : solve? s a b radius rotation = some g) :
    g.centre.distance a = |radius| ∧ g.centre.distance b = |radius| := by
  have hchord : 0 ≤ a.distance b := (Position.distance_pos hne).le
  have hmax : max (radius ^ 2) (a.distance b ^ 2 / 4) = |radius| ^ 2 := by
    rw [sq_abs, max_eq_left_iff, ← sq_abs radius]
    have := mul_self_le_mul_self (by linarith) hreach
    linarith
  obtain ⟨ha, hb⟩ := distance_centre_sq_of_solve? hne h
  rw [hmax, ← norm_toward] at ha hb
  rw [← norm_toward, ← norm_toward]
  exact ⟨(sq_eq_sq₀ (norm_nonneg _) (abs_nonneg _)).1 ha,
    (sq_eq_sq₀ (norm_nonneg _) (abs_nonneg _)).1 hb⟩

/-- The ends are then the places where the arc starts and where it has turned by its sweep. -/
theorem pointAt_startAngle_of_reaches (hne : a ≠ b) (hreach : a.distance b / 2 ≤ |radius|)
    (h : solve? s a b radius rotation = some g) :
    g.pointAt g.startAngle = a ∧ g.pointAt (g.startAngle + g.sweep) = b := by
  obtain ⟨ha, hb⟩ := distance_centre_of_reaches hne hreach h
  rw [← radius_of_solve? h] at ha hb
  constructor
  · rw [startAngle_of_solve? h, pointAt_angleOf ha]
  · obtain ⟨k, hk⟩ := exists_startAngle_add_sweep h
    rw [hk, pointAt_add_turns, pointAt_angleOf hb]

/-- **No jump at the ends.**  If the radius reaches the ends, they are the places at the first and
the last angle. -/
theorem pointAt_of_reaches (hne : a ≠ b) (hreach : a.distance b / 2 ≤ |radius|)
    (h : solve? s a b radius rotation = some g) :
    g.pointAt (g.angleAfter (stepCount s g.sweep) 0) = a ∧
      g.pointAt (g.angleAfter (stepCount s g.sweep) (stepCount s g.sweep)) = b := by
  obtain ⟨ha, hb⟩ := pointAt_startAngle_of_reaches hne hreach h
  have hsteps : (stepCount s g.sweep : ℝ) ≠ 0 :=
    Nat.cast_ne_zero.2 (Nat.one_le_iff_ne_zero.1 (one_le_stepCount s g.sweep))
  constructor
  · rw [angleAfter_eq, Nat.cast_zero, zero_mul, add_zero, ha]
  · rw [angleAfter_eq, mul_div_cancel₀ _ hsteps, hb]

theorem distance_le_of_reaches (hne : a ≠ b) (hreach : a.distance b / 2 ≤ |radius|)
    (h : solve? s a b radius rotation = some g) : a.distance b ≤ |radius| * |g.sweep| := by
  obtain ⟨ha, hb⟩ := pointAt_startAngle_of_reaches hne hreach h
  have hchord := distance_pointAt_le g g.startAngle (g.startAngle + g.sweep)
  rwa [ha, hb, sub_add_cancel_left, abs_neg, radius_of_solve? h, abs_abs] at hchord

/-- How the polyline of an arc runs along its circle. -/
structure Rounds (s : ArcSettings ℝ) (a b : Position ℝ) (radius : ℝ) (g : Arc ℝ)
    (path : List (Position ℝ)) : Prop where
  /-- There are enough steps for none to turn by more than the settings allow. -/
  fine : |g.sweep| ≤ stepCount s g.sweep * s.maxAngleStep
  /-- The places between the ends are on the circle, at equal angles. -/
  between : ∀ i, 0 < i → i < stepCount s g.sweep → ∃ p, path[i]? = some p ∧
    p = g.pointAt (g.startAngle + i * (g.sweep / stepCount s g.sweep)) ∧
    g.centre.distance p = |radius|
  /-- From the centre they are seen at these angles, unless the circle is a point. -/
  seen : radius ≠ 0 → ∀ i p, 0 < i → i < stepCount s g.sweep → path[i]? = some p →
    ∃ k : ℤ, g.angleOf p = g.startAngle + i * (g.sweep / stepCount s g.sweep) + k * (2 * pi)
  /-- If the radius reaches the ends, they are on the circle too, at the first and the last
  angle. -/
  ends : a ≠ b → a.distance b / 2 ≤ |radius| →
    (g.pointAt (g.angleAfter (stepCount s g.sweep) 0) = a ∧
      g.pointAt (g.angleAfter (stepCount s g.sweep) (stepCount s g.sweep)) = b) ∧
    g.centre.distance a = |radius| ∧ g.centre.distance b = |radius|

theorem rounds_polyline (hstep : 0 < s.maxAngleStep) (h : solve? s a b radius rotation = some g)
    (hfits : stepCount s g.sweep < placeLimit) :
    Rounds s a b radius g (polyline s a b radius rotation) := by
  have hradius := radius_of_solve? h
  refine ⟨abs_sweep_le_steps hstep hfits, fun i h0 hi => ?_, fun hne i p h0 hi hp => ?_,
    fun hne hreach => ?_⟩
  · refine ⟨_, getElem?_polyline h h0 hi, by rw [angleAfter_eq], ?_⟩
    rw [distance_centre_pointAt, hradius, abs_abs]
  · rw [getElem?_polyline h h0 hi, Option.some.injEq, angleAfter_eq] at hp
    rw [← hp]
    exact exists_angleOf_pointAt (hradius ▸ abs_pos.2 hne) _
  · exact ⟨pointAt_of_reaches hne hreach h, distance_centre_of_reaches hne hreach h⟩

/-- There is a list of the places of the polyline, and it runs as it is meant to. -/
def Draws (s : ArcSettings ℝ) (a b : Position ℝ) (radius : ℝ) (rotation : Rotation) : Prop :=
  ∃ path, polyline? s a b radius rotation = some path ∧ Outlines s a b radius rotation path ∧
    ∀ g, solve? s a b radius rotation = some g → Rounds s a b radius g path

theorem draws_iff_stepCount_lt (hstep : 0 < s.maxAngleStep) : Draws s a b radius rotation ↔
    ∀ g, solve? s a b radius rotation = some g → stepCount s g.sweep < placeLimit := by
  rw [← exists_outlines_iff]
  constructor
  · rintro ⟨path, hpath, houtlines, -⟩
    exact ⟨path, hpath, houtlines⟩
  · rintro ⟨path, hpath, houtlines⟩
    refine ⟨path, hpath, houtlines, ?_⟩
    intro g hg
    obtain ⟨rfl, hfits⟩ := polyline?_eq_some_iff.1 hpath
    exact rounds_polyline hstep hg (hfits g hg)

/-- **The polyline of an arc is exact at its ends, fine enough and without a jump, exactly if there
is a list that holds it.**  Whatever the scalars and the settings, there is one if there is no arc
or its steps are fewer than the places that a list can hold; it then starts and ends at the given
places, and it is the straight move exactly if there is no arc or one step, and otherwise has the
places of as many steps as are asked for.  Over the real numbers, if the settings `t` allow a
positive angle, there is such a list, no step of it turns by more than that angle, the places
between the ends are on the circle at equal angles, and so are the ends if the radius reaches them,
exactly if neither the least number of steps nor the largest angle asks for more places than a list
can hold. -/
theorem draws_iff {α : Type} [Scalar α] (s : ArcSettings α) (a b : Position α) (radius : α)
    (rotation : Rotation) :
    ((∃ path, polyline? s a b radius rotation = some path ∧
        Outlines s a b radius rotation path) ↔
      ∀ g, solve? s a b radius rotation = some g → stepCount s g.sweep < placeLimit) ∧
    ∀ (t : ArcSettings ℝ) (c d : Position ℝ) (r : ℝ), 0 < t.maxAngleStep →
      (Draws t c d r rotation ↔ ∀ g, solve? t c d r rotation = some g →
        t.minPoints.toNat < placeLimit ∧
          |g.sweep| ≤ (placeLimit - 1 : ℕ) * t.maxAngleStep) := by
  refine ⟨exists_outlines_iff, ?_⟩
  intro t c d r hstep
  rw [draws_iff_stepCount_lt hstep]
  exact forall₂_congr fun _ _ => stepCount_lt_placeLimit_iff hstep

/-! ### A half circle -/

theorem distance_halfCircle : (⟨20, -10⟩ : Position ℝ).distance ⟨26, -14⟩ = 5 := by
  rw [Position.distance_eq_sqrt]
  norm_num

/-- The radius just reaches the ends. -/
theorem reaches_halfCircle :
    (⟨20, -10⟩ : Position ℝ).distance ⟨26, -14⟩ / 2 ≤ |(-2.5 : ℝ)| := by
  rw [distance_halfCircle]
  norm_num [abs_of_neg]

theorem exists_solve?_halfCircle (hchord : s.minChord ≤ 5) (hradius : s.minRadius ≤ 2.5)
    (htolerance : 0 ≤ s.radiusTolerance) :
    ∃ g : Arc ℝ, solve? s ⟨20, -10⟩ ⟨26, -14⟩ (-2.5) .clockwise = some g := by
  rw [← Option.ne_none_iff_exists', Ne, solve?_eq_none_iff, not_or, not_or, not_lt, not_lt, not_lt,
    distance_halfCircle]
  norm_num [abs_of_neg] at hradius ⊢
  exact ⟨hchord, hradius, htolerance⟩

theorem two_le_abs_sweep_halfCircle
    (h : solve? s ⟨20, -10⟩ ⟨26, -14⟩ (-2.5) .clockwise = some g) : 2 ≤ |g.sweep| := by
  have hle := distance_le_of_reaches (by simp) reaches_halfCircle h
  rw [distance_halfCircle] at hle
  norm_num [abs_of_neg] at hle
  linarith

theorem draws_iff_halfCircle :
    0 < (.standard : ArcSettings ℝ).maxAngleStep ∧ (⟨20, -10⟩ : Position ℝ) ≠ ⟨26, -14⟩ ∧
      (⟨20, -10⟩ : Position ℝ).distance ⟨26, -14⟩ / 2 ≤ |(-2.5 : ℝ)| ∧
      (∃ g : Arc ℝ, solve? .standard ⟨20, -10⟩ ⟨26, -14⟩ (-2.5) .clockwise = some g) ∧
      Draws .standard ⟨20, -10⟩ ⟨26, -14⟩ (-2.5) .clockwise := by
  have hne : (⟨20, -10⟩ : Position ℝ) ≠ ⟨26, -14⟩ := by simp
  have hangle : (.standard : ArcSettings ℝ).maxAngleStep = pi / 32 := by
    norm_num [ArcSettings.standard]
  have hstep : 0 < (.standard : ArcSettings ℝ).maxAngleStep := by
    rw [hangle]
    linarith [Real.pi_pos]
  have hsome : ∃ g : Arc ℝ, solve? .standard ⟨20, -10⟩ ⟨26, -14⟩ (-2.5) .clockwise = some g := by
    apply exists_solve?_halfCircle <;> norm_num [ArcSettings.standard]
  have hdraws := (draws_iff .standard ⟨20, -10⟩ ⟨26, -14⟩ (-2.5 : ℝ) .clockwise).2
  refine ⟨hstep, hne, reaches_halfCircle, hsome, (hdraws _ _ _ _ hstep).2 ?_⟩
  intro g hg
  have hpi := (sweep_of_solve? hne hg).1
  refine ⟨by decide, ?_⟩
  calc |g.sweep| ≤ 32 * (.standard : ArcSettings ℝ).maxAngleStep := by rw [hangle]; linarith
    _ ≤ (placeLimit - 1 : ℕ) * (.standard : ArcSettings ℝ).maxAngleStep := by
      refine mul_le_mul_of_nonneg_right ?_ hstep.le
      norm_num [placeLimit]

/-- With a largest angle of `1e-30`, which passes the check, there is no list of the places of a
half circle, and the steps that are counted turn by less than the arc. -/
theorem not_draws_tinySteps : ∃ t : Tuning ℝ, t.fault? = none ∧ ∃ g : Arc ℝ,
    solve? t.arc ⟨20, -10⟩ ⟨26, -14⟩ (-2.5) .clockwise = some g ∧
      polyline? t.arc ⟨20, -10⟩ ⟨26, -14⟩ (-2.5) .clockwise = none ∧
      stepCount t.arc g.sweep = countLimit ∧
      stepCount t.arc g.sweep * t.arc.maxAngleStep < |g.sweep| := by
  let arc : ArcSettings ℝ := { ArcSettings.standard with maxAngleStep := 1e-30 }
  let t : Tuning ℝ := { Tuning.standard with arc := arc }
  have hpositive {x : ℝ} (h : 0 < x) : Scalar.isPositive x = true := Scalar.isPositive_real.2 h
  have hpoints : (24 : UInt64) ≠ 0 := by decide
  have hvalid : t.fault? = none := by
    norm_num [Tuning.fault?, t, arc, Tuning.standard, ArcSettings.standard, CycleSettings.standard,
      hpositive, hpoints]
  obtain ⟨g, hg⟩ : ∃ g : Arc ℝ, solve? t.arc ⟨20, -10⟩ ⟨26, -14⟩ (-2.5) .clockwise = some g := by
    apply exists_solve?_halfCircle <;> norm_num [t, arc, ArcSettings.standard]
  have hsweep := two_le_abs_sweep_halfCircle hg
  have hmany : countLimit ≤ ⌈|g.sweep| / 1e-30⌉₊ := by
    refine Nat.cast_le (α := ℝ).1 (le_trans ?_ (Nat.le_ceil _))
    rw [le_div_iff₀ (by norm_num)]
    norm_num [countLimit]
    linarith
  have hcount : stepCount t.arc g.sweep = countLimit := by
    refine le_antisymm (stepCount_le _ _) ?_
    exact (le_min le_rfl hmany).trans (min_ceil_le_stepCount t.arc g.sweep)
  refine ⟨t, hvalid, g, hg, ?_, hcount, ?_⟩
  · rw [Option.eq_none_iff_forall_ne_some]
    intro path hpath
    have hfits := (polyline?_eq_some_iff.1 hpath).2 g hg
    rw [hcount] at hfits
    exact absurd placeLimit_le_countLimit (not_le.2 hfits)
  · rw [hcount]
    norm_num [countLimit, t, arc]
    linarith

end Arc

end Lathe
