import Lathe.Proofs.Scalar.Real
import Lathe.Trace.Point

/-!
# Distances between places

Distances halve the difference in diameter, so that both axes are measured in the same unit.  Over
the real numbers they are the distances of a plane (`Position.distance_eq_dist`), which brings the
triangle inequality with it.
-/

namespace Lathe

namespace Position

/-- The place in the plane, with its diameter halved. -/
noncomputable def inPlane (p : Position ℝ) : ℂ := ⟨p.x * 0.5, p.z⟩

theorem distance_eq_sqrt (a b : Position ℝ) :
    a.distance b = √(((b.x - a.x) * 0.5) ^ 2 + (b.z - a.z) ^ 2) := by
  rw [pow_two, pow_two]
  rfl

/-- **Distances are those of the plane.** -/
theorem distance_eq_dist (a b : Position ℝ) : a.distance b = dist a.inPlane b.inPlane := by
  rw [dist_comm, Complex.dist_eq_re_im, distance_eq_sqrt, sub_mul]
  rfl

theorem distance_sq (a b : Position ℝ) :
    a.distance b ^ 2 = ((b.x - a.x) / 2) ^ 2 + (b.z - a.z) ^ 2 := by
  rw [distance_eq_sqrt, Real.sq_sqrt (by positivity)]
  ring

theorem distance_pos {a b : Position ℝ} (h : a ≠ b) : 0 < a.distance b := by
  rw [distance_eq_dist, dist_pos]
  intro hab
  obtain ⟨hx, hz⟩ := Complex.ext_iff.1 hab
  apply h
  cases a
  cases b
  simp only [inPlane] at hx hz
  congr
  linarith

end Position

namespace Point

theorem distance_triangle (a b c : Point ℝ) : a.distance c ≤ a.distance b + b.distance c := by
  simp only [distance, Position.distance_eq_dist]
  exact dist_triangle _ _ _

end Point

end Lathe
