import Lathe.Motion.Arc
import Lathe.Proofs.Trace.Distance

/-!
# The circle of an arc

Two circles of a given radius go through the ends of an arc, with their centres on either side of
the chord.  An arc is solved for by trying both and taking the one about which it turns less.  Over
the real numbers `Arc.joins_of_solve?` says that this is the arc that was asked for: both ends are
equally far from the centre, the arc turns by half a turn at most in the direction given, and it
ends where the second end is seen from the centre.

That half a turn is enough comes from a symmetry.  Each centre sees the ends the opposite way to
how the other one sees them, so what the arc turns about the one and about the other makes a full
turn (`Arc.abs_directed_add_abs_directed_neg`), and the smaller part is at most a half.

* `Arc.centre` : the centre as a place.
* `Arc.angleOf` : the angle at which a place is seen from the centre.
* `Arc.StandsOn` : an arc about a centre on one side of the chord.
* `Arc.Joins` : what is asked of an arc.
-/

namespace Lathe

namespace Arc

open Real (pi)

/-! ### Angles in a direction -/

section

variable {r : Rotation} {x y : ℝ} {u v : ℂ}

/-- An angle brought to its direction is the same up to full turns. -/
theorem directed_eq_add (r : Rotation) (x : ℝ) : ∃ k : ℤ, directed r x = x + k * (2 * pi) := by
  cases r with
  | clockwise =>
    simp only [directed, Scalar.two_real, Scalar.zero_real, Scalar.pi_real]
    split_ifs
    · exact ⟨-1, by push_cast; ring⟩
    · exact ⟨0, by simp⟩
  | counterclockwise =>
    simp only [directed, Scalar.two_real, Scalar.zero_real, Scalar.pi_real]
    split_ifs
    · exact ⟨1, by simp⟩
    · exact ⟨0, by simp⟩

theorem directed_clockwise_mem (h : |x| < 2 * pi) :
    directed .clockwise x ∈ Set.Ioc (-(2 * pi)) 0 := by
  obtain ⟨hlo, hhi⟩ := abs_lt.1 h
  simp only [directed, Scalar.two_real, Scalar.zero_real, Scalar.pi_real]
  split_ifs <;> constructor <;> linarith

theorem directed_counterclockwise_mem (h : |x| < 2 * pi) :
    directed .counterclockwise x ∈ Set.Ico 0 (2 * pi) := by
  obtain ⟨hlo, hhi⟩ := abs_lt.1 h
  simp only [directed, Scalar.two_real, Scalar.zero_real, Scalar.pi_real]
  split_ifs <;> constructor <;> linarith

theorem abs_directed_lt (r : Rotation) (h : |x| < 2 * pi) : |directed r x| < 2 * pi := by
  cases r with
  | clockwise =>
    obtain ⟨hlo, hhi⟩ := directed_clockwise_mem h
    rwa [abs_of_nonpos hhi, neg_lt]
  | counterclockwise =>
    obtain ⟨hlo, hhi⟩ := directed_counterclockwise_mem h
    rwa [abs_of_nonneg hlo]

/-- Angles of one direction have one sign. -/
theorem abs_directed_add (r : Rotation) (hx : |x| < 2 * pi) (hy : |y| < 2 * pi) :
    |directed r x + directed r y| = |directed r x| + |directed r y| := by
  rw [abs_add_eq_add_abs_iff]
  cases r with
  | clockwise => exact .inr ⟨(directed_clockwise_mem hx).2, (directed_clockwise_mem hy).2⟩
  | counterclockwise =>
    exact .inl ⟨(directed_counterclockwise_mem hx).1, (directed_counterclockwise_mem hy).1⟩

theorem abs_arg_sub_arg_lt (u v : ℂ) : |v.arg - u.arg| < 2 * pi := by
  obtain ⟨hu, hu'⟩ := Complex.arg_mem_Ioc u
  obtain ⟨hv, hv'⟩ := Complex.arg_mem_Ioc v
  rw [abs_lt]
  constructor <;> linarith

/-- Only from a place to itself is there no turn. -/
theorem eq_of_directed_eq_zero (hnorm : ‖u‖ = ‖v‖) (h : directed r (v.arg - u.arg) = 0) :
    u = v := by
  obtain ⟨k, hk⟩ := directed_eq_add r (v.arg - u.arg)
  have hangle : (u.arg : Real.Angle) = v.arg := by
    rw [Real.Angle.angle_eq_iff_two_pi_dvd_sub]
    exact ⟨k, by linarith⟩
  exact Complex.ext_norm_arg hnorm (Complex.arg_coe_angle_eq_iff.1 hangle)

/-- The turn between two places and the one between the opposite places cancel, up to full
turns. -/
theorem exists_directed_add_directed_neg (r : Rotation) (hu : u ≠ 0) (hv : v ≠ 0) :
    ∃ m : ℤ, directed r (v.arg - u.arg) + directed r ((-u).arg - (-v).arg) = 2 * pi * m := by
  obtain ⟨k, hk⟩ := directed_eq_add r (v.arg - u.arg)
  obtain ⟨l, hl⟩ := directed_eq_add r ((-u).arg - (-v).arg)
  have hangle : ((v.arg - u.arg + ((-u).arg - (-v).arg) : ℝ) : Real.Angle) = (0 : ℝ) := by
    rw [Real.Angle.coe_add, Real.Angle.coe_sub, Real.Angle.coe_sub, Real.Angle.coe_zero,
      Complex.arg_neg_coe_angle hu, Complex.arg_neg_coe_angle hv]
    abel
  obtain ⟨m, hm⟩ := Real.Angle.angle_eq_iff_two_pi_dvd_sub.1 hangle
  exact ⟨m + k + l, by push_cast; linarith⟩

theorem eq_two_pi_of_lt {m : ℤ} (h : x = 2 * pi * m) (hpos : 0 < x) (hlt : x < 2 * (2 * pi)) :
    x = 2 * pi := by
  have h0 : (0 : ℝ) < m := (mul_pos_iff_of_pos_left Real.two_pi_pos).1 (h ▸ hpos)
  have h2 : (m : ℝ) < 2 := by
    rw [h, mul_comm] at hlt
    exact lt_of_mul_lt_mul_right hlt Real.two_pi_pos.le
  have hm : m = 1 := by
    have : 0 < m := by exact_mod_cast h0
    have : m < 2 := by exact_mod_cast h2
    omega
  rw [h, hm, Int.cast_one, mul_one]

/-- **Two centres share a full turn.**  The turn from one place to another and the one from the
opposite of the other to the opposite of the first, in the same direction, make a full turn. -/
theorem abs_directed_add_abs_directed_neg (r : Rotation) (hu : u ≠ 0) (hv : v ≠ 0)
    (hnorm : ‖u‖ = ‖v‖) (hne : u ≠ v) :
    |directed r (v.arg - u.arg)| + |directed r ((-u).arg - (-v).arg)| = 2 * pi := by
  have hlt := abs_arg_sub_arg_lt u v
  have hlt' := abs_arg_sub_arg_lt (-v) (-u)
  have hpos : 0 < |directed r (v.arg - u.arg)| :=
    abs_pos.2 fun h => hne (eq_of_directed_eq_zero hnorm h)
  obtain ⟨m, hm⟩ := exists_directed_add_directed_neg r hu hv
  have hsum := abs_directed_add r hlt hlt'
  rw [hm, abs_mul, abs_of_pos Real.two_pi_pos, ← Int.cast_abs] at hsum
  refine eq_two_pi_of_lt hsum.symm ?_ ?_
  · exact add_pos_of_pos_of_nonneg hpos (abs_nonneg _)
  · linarith [abs_directed_lt r hlt, abs_directed_lt r hlt']

end

/-! ### The two centres -/

/-- The centre, with its diameter restored. -/
def centre (g : Arc ℝ) : Position ℝ := ⟨g.centreR * 2.0, g.centreZ⟩

/-- A place as it is seen from the centre: along the axis and across it. -/
noncomputable def toward (g : Arc ℝ) (p : Position ℝ) : ℂ :=
  ⟨p.z - g.centreZ, p.x / 2.0 - g.centreR⟩

/-- The angle at which a place is seen from the centre, measured from the axis. -/
noncomputable def angleOf (g : Arc ℝ) (p : Position ℝ) : ℝ :=
  Scalar.atan2 (p.x / 2.0 - g.centreR) (p.z - g.centreZ)

/-- The arc from one place to another about the centre that lies `t` chords above the middle of the
chord, or below it if `t` is negative. -/
structure StandsOn (a b : Position ℝ) (rotation : Rotation) (t : ℝ) (g : Arc ℝ) : Prop where
  /-- The centre across the axis. -/
  centreR_eq : g.centreR = (a.x + b.x) / 4 - (b.z - a.z) * t
  /-- The centre along the axis. -/
  centreZ_eq : g.centreZ = (a.z + b.z) / 2 + (b.x - a.x) / 2 * t
  /-- It starts where the first place is seen. -/
  startAngle_eq : g.startAngle = g.angleOf a
  /-- It turns to where the second place is seen. -/
  sweep_eq : g.sweep = directed rotation (g.angleOf b - g.angleOf a)

variable {s : ArcSettings ℝ} {a b : Position ℝ} {radius t : ℝ} {rotation : Rotation} {g g' : Arc ℝ}

theorem angleOf_eq_arg (g : Arc ℝ) (p : Position ℝ) : g.angleOf p = (g.toward p).arg := rfl

theorem norm_toward (g : Arc ℝ) (p : Position ℝ) : ‖g.toward p‖ = g.centre.distance p := by
  rw [Position.distance_eq_sqrt, Complex.norm_eq_sqrt_sq_add_sq, add_comm]
  refine congrArg Real.sqrt (congrArg₂ (· + ·) ?_ rfl)
  rw [centre, toward, Scalar.two_real]
  ring

theorem toward_injective (g : Arc ℝ) : Function.Injective g.toward := by
  intro a b h
  obtain ⟨hz, hx⟩ := Complex.ext_iff.1 h
  simp only [toward, Scalar.two_real] at hz hx
  cases a
  cases b
  congr <;> linarith

/-- From the other centre each end is seen the opposite way to how this one sees the other end. -/
theorem StandsOn.toward_mirror (h : StandsOn a b rotation t g)
    (h' : StandsOn a b rotation (-t) g') :
    g'.toward a = -g.toward b ∧ g'.toward b = -g.toward a := by
  constructor <;> apply Complex.ext <;>
    simp only [toward, Scalar.two_real, Complex.neg_re, Complex.neg_im, h.centreR_eq, h.centreZ_eq,
      h'.centreR_eq, h'.centreZ_eq] <;> ring

/-- Both ends are equally far from the centre. -/
theorem StandsOn.distance_centre_sq (h : StandsOn a b rotation t g) :
    g.centre.distance a ^ 2 = (1 / 4 + t ^ 2) * a.distance b ^ 2 ∧
      g.centre.distance b ^ 2 = (1 / 4 + t ^ 2) * a.distance b ^ 2 := by
  simp only [Position.distance_sq, centre, Scalar.two_real, h.centreR_eq, h.centreZ_eq]
  constructor <;> ring

theorem StandsOn.toward_ne_zero (h : StandsOn a b rotation t g) (hne : a ≠ b) :
    g.toward a ≠ 0 ∧ g.toward b ≠ 0 := by
  have hchord := Position.distance_pos hne
  have hpos : 0 < (1 / 4 + t ^ 2) * a.distance b ^ 2 := by positivity
  obtain ⟨ha, hb⟩ := h.distance_centre_sq
  constructor
  · intro h0
    rw [← norm_toward, h0, norm_zero, zero_pow two_ne_zero] at ha
    exact hpos.ne ha
  · intro h0
    rw [← norm_toward, h0, norm_zero, zero_pow two_ne_zero] at hb
    exact hpos.ne hb

/-- About the centre that makes for the smaller turn it is half a turn at most. -/
theorem StandsOn.abs_sweep_le (h : StandsOn a b rotation t g)
    (h' : StandsOn a b rotation (-t) g') (hle : |g.sweep| ≤ |g'.sweep|) (hne : a ≠ b) :
    |g.sweep| ≤ pi := by
  obtain ⟨ha, hb⟩ := h.toward_ne_zero hne
  obtain ⟨hda, hdb⟩ := h.distance_centre_sq
  obtain ⟨hma, hmb⟩ := h.toward_mirror h'
  have hnorm : ‖g.toward a‖ = ‖g.toward b‖ := by
    rw [← sq_eq_sq₀ (norm_nonneg _) (norm_nonneg _), norm_toward, norm_toward, hda, hdb]
  have hturn := abs_directed_add_abs_directed_neg rotation ha hb hnorm
    ((toward_injective g).ne hne)
  rw [h'.sweep_eq, angleOf_eq_arg, angleOf_eq_arg, hma, hmb] at hle
  rw [h.sweep_eq, angleOf_eq_arg, angleOf_eq_arg] at hle ⊢
  linarith

theorem standsOn_about {r z : ℝ} (hr : r = (a.x + b.x) / 4 - (b.z - a.z) * t)
    (hz : z = (a.z + b.z) / 2 + (b.x - a.x) / 2 * t) :
    StandsOn a b rotation t (about rotation radius r z (a.x / 2) a.z (b.x / 2) b.z) := by
  rw [← Scalar.two_real]
  exact ⟨hr, hz, rfl, rfl⟩

theorem sqrt_chord_eq (a b : Position ℝ) :
    √((b.x / 2 - a.x / 2) * (b.x / 2 - a.x / 2) + (b.z - a.z) * (b.z - a.z)) = a.distance b := by
  rw [Position.distance_eq_sqrt]
  exact congrArg Real.sqrt (by ring)

/-- **What has no arc**: ends that are too near, a radius that is too small, and ends that are too
far apart for it. -/
theorem solve?_eq_none_iff : solve? s a b radius rotation = none ↔
    a.distance b < s.minChord ∨ |radius| < s.minRadius ∨
      |radius| < a.distance b / 2 - s.radiusTolerance := by
  simp only [solve?, Scalar.two_real, Scalar.sqrt_real, Scalar.abs_real, sqrt_chord_eq]
  split_ifs with hdegenerate
  · exact ⟨fun _ => hdegenerate, fun _ => rfl⟩
  · exact ⟨nofun, fun h => absurd h hdegenerate⟩

/-- **What is solved for**: of the arcs about two centres, one on each side of the chord, the one
that turns less. -/
theorem exists_standsOn_of_solve? (h : solve? s a b radius rotation = some g) :
    ∃ t g', t ^ 2 = max (radius ^ 2 - a.distance b ^ 2 / 4) 0 / a.distance b ^ 2 ∧
      StandsOn a b rotation t g ∧ StandsOn a b rotation (-t) g' ∧ |g.sweep| ≤ |g'.sweep| := by
  have hheight (σ : ℝ) (hσ : σ ^ 2 = 1) : (σ * (√(max (|radius| * |radius| -
      a.distance b / 2 * (a.distance b / 2)) 0) / a.distance b)) ^ 2 =
        max (radius ^ 2 - a.distance b ^ 2 / 4) 0 / a.distance b ^ 2 := by
    rw [mul_pow, hσ, one_mul, div_pow, Real.sq_sqrt (le_max_right _ _), abs_mul_abs_self]
    ring_nf
  simp only [solve?, Scalar.two_real, Scalar.zero_real, Scalar.sqrt_real, Scalar.abs_real,
    Scalar.max_real, sqrt_chord_eq] at h
  split_ifs at h with _ hle
  · obtain rfl := Option.some.inj h
    refine ⟨_, _, hheight 1 (by norm_num), standsOn_about ?_ ?_, standsOn_about ?_ ?_, hle⟩ <;> ring
  · obtain rfl := Option.some.inj h
    refine ⟨_, _, hheight (-1) (by norm_num), standsOn_about ?_ ?_, standsOn_about ?_ ?_,
      (not_le.1 hle).le⟩ <;> ring

theorem radius_of_solve? (h : solve? s a b radius rotation = some g) : g.radius = |radius| := by
  simp only [solve?] at h
  split_ifs at h <;> obtain rfl := Option.some.inj h <;> rfl

/-! ### The solved arc -/

/-- Both ends are as far from the centre as the radius, or as half the chord if the radius is
shorter. -/
theorem distance_centre_sq_of_solve? (hne : a ≠ b) (h : solve? s a b radius rotation = some g) :
    g.centre.distance a ^ 2 = max (radius ^ 2) (a.distance b ^ 2 / 4) ∧
      g.centre.distance b ^ 2 = max (radius ^ 2) (a.distance b ^ 2 / 4) := by
  obtain ⟨t, _, ht, hg, -⟩ := exists_standsOn_of_solve? h
  have hchord := (Position.distance_pos hne).ne'
  have hmax : (1 / 4 + t ^ 2) * a.distance b ^ 2 = max (radius ^ 2) (a.distance b ^ 2 / 4) := by
    rw [add_mul, ht, div_mul_cancel₀ _ (pow_ne_zero 2 hchord), ← max_add_add_left]
    ring_nf
  obtain ⟨ha, hb⟩ := hg.distance_centre_sq
  exact ⟨ha.trans hmax, hb.trans hmax⟩

theorem startAngle_of_solve? (h : solve? s a b radius rotation = some g) :
    g.startAngle = g.angleOf a := by
  obtain ⟨_, _, -, hg, -⟩ := exists_standsOn_of_solve? h
  exact hg.startAngle_eq

/-- The arc ends where the last end is seen from the centre, up to full turns. -/
theorem exists_startAngle_add_sweep (h : solve? s a b radius rotation = some g) :
    ∃ k : ℤ, g.startAngle + g.sweep = g.angleOf b + k * (2 * pi) := by
  obtain ⟨_, _, -, hg, -⟩ := exists_standsOn_of_solve? h
  obtain ⟨k, hk⟩ := directed_eq_add rotation (g.angleOf b - g.angleOf a)
  exact ⟨k, by rw [hg.startAngle_eq, hg.sweep_eq, hk]; ring⟩

/-- The arc turns by half a turn at most, in the direction given. -/
theorem sweep_of_solve? (hne : a ≠ b) (h : solve? s a b radius rotation = some g) :
    |g.sweep| ≤ pi ∧ ∃ x, |x| < 2 * pi ∧ g.sweep = directed rotation x := by
  obtain ⟨t, g', -, hg, hg', hle⟩ := exists_standsOn_of_solve? h
  exact ⟨hg.abs_sweep_le hg' hle hne, _, abs_arg_sub_arg_lt (g.toward a) (g.toward b), hg.sweep_eq⟩

/-- What is asked of an arc from one place to another with a radius whose sign does not matter. -/
structure Joins (a b : Position ℝ) (radius : ℝ) (rotation : Rotation) (g : Arc ℝ) : Prop where
  /-- The first place is as far from the centre as the radius, or as half the chord if the radius
  is shorter. -/
  first : g.centre.distance a ^ 2 = max (radius ^ 2) (a.distance b ^ 2 / 4)
  /-- So is the second. -/
  last : g.centre.distance b ^ 2 = max (radius ^ 2) (a.distance b ^ 2 / 4)
  /-- With the clock the arc turns backwards, by half a turn at most. -/
  clockwise : rotation = .clockwise → g.sweep ∈ Set.Icc (-pi) 0
  /-- Against the clock it turns forwards, by half a turn at most. -/
  counterclockwise : rotation = .counterclockwise → g.sweep ∈ Set.Icc 0 pi
  /-- It starts where the first place is seen from the centre. -/
  starts : g.startAngle = g.angleOf a
  /-- It ends where the second is seen, up to full turns. -/
  ends : ∃ k : ℤ, g.startAngle + g.sweep = g.angleOf b + k * (2 * pi)

/-- **The solved arc joins its ends.**  Wherever an arc between two different places is solved: its
centre is equally far from both, by the radius or by half the chord if that is longer; it turns in
the direction given by half a turn at most, and from where the first place is seen from the centre
to where the second is. -/
theorem joins_of_solve? (hne : a ≠ b) (h : solve? s a b radius rotation = some g) :
    Joins a b radius rotation g := by
  obtain ⟨hfirst, hlast⟩ := distance_centre_sq_of_solve? hne h
  obtain ⟨hpi, x, hx, hsweep⟩ := sweep_of_solve? hne h
  obtain ⟨hlo, hhi⟩ := abs_le.1 hpi
  refine ⟨hfirst, hlast, ?_, ?_, startAngle_of_solve? h, exists_startAngle_add_sweep h⟩
  · rintro rfl
    exact ⟨hlo, hsweep.trans_le (directed_clockwise_mem hx).2⟩
  · rintro rfl
    exact ⟨(directed_counterclockwise_mem hx).1.trans_eq hsweep.symm, hhi⟩

/-- A half circle whose radius is a little shorter than half the chord. -/
theorem joins_of_solve?_halfCircle :
    (⟨0, 0⟩ : Position ℝ) ≠ ⟨0, -10⟩ ∧ ∃ g : Arc ℝ,
      solve? .standard ⟨0, 0⟩ ⟨0, -10⟩ (-4.9995) .counterclockwise = some g ∧
      Joins ⟨0, 0⟩ ⟨0, -10⟩ (-4.9995) .counterclockwise g := by
  have hne : (⟨0, 0⟩ : Position ℝ) ≠ ⟨0, -10⟩ := by simp
  have hchord : (⟨0, 0⟩ : Position ℝ).distance ⟨0, -10⟩ = 10 := by
    rw [Position.distance_eq_sqrt]
    norm_num
  have hsome : solve? .standard ⟨0, 0⟩ ⟨0, -10⟩ (-4.9995 : ℝ) .counterclockwise ≠ none := by
    rw [Ne, solve?_eq_none_iff, hchord]
    norm_num [ArcSettings.standard, abs_of_neg]
  obtain ⟨g, hg⟩ := Option.ne_none_iff_exists'.1 hsome
  exact ⟨hne, g, hg, joins_of_solve? hne hg⟩

end Arc

end Lathe
