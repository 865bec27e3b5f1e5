import Lathe.Scalar.Basic
import Mathlib

/-!
# Exact scalars

Over the real numbers the rules of the library are exact: nothing is rounded, every value is
finite, and the comparisons are those of a linear order.  This is the scalar type that theorems
about the geometry of contours and cycles speak about.
-/

namespace Lathe

/-- The real numbers as scalars.  They have no value above every other, so that `unbounded` means
nothing here; only the least value of an empty list asks for it.  Every one of them has a ceiling,
however large: a rule that counts up to a limit has this limit in its definition. -/
noncomputable instance : Scalar ℝ where
  decLt := inferInstance
  decLe := inferInstance
  ofNat n := n
  abs x := |x|
  sqrt := Real.sqrt
  sin := Real.sin
  cos := Real.cos
  atan2 y x := Complex.arg ⟨x, y⟩
  pow x y := x ^ y
  pi := Real.pi
  unbounded := 0
  isFinite _ := true
  ceil x := ⌈x⌉₊
  toNat? x := if (⌊x⌋₊ : ℝ) = x then some ⌊x⌋₊ else none

namespace Scalar

@[simp] theorem ofNat_real (n : ℕ) : (ofNat n : ℝ) = n := rfl

@[simp] theorem abs_real (x : ℝ) : Scalar.abs x = |x| := rfl

@[simp] theorem sqrt_real (x : ℝ) : Scalar.sqrt x = √x := rfl

@[simp] theorem sin_real (x : ℝ) : Scalar.sin x = Real.sin x := rfl

@[simp] theorem cos_real (x : ℝ) : Scalar.cos x = Real.cos x := rfl

@[simp] theorem atan2_real (y x : ℝ) : Scalar.atan2 y x = Complex.arg ⟨x, y⟩ := rfl

@[simp] theorem pi_real : (Scalar.pi : ℝ) = Real.pi := rfl

@[simp] theorem isFinite_real (x : ℝ) : isFinite x = true := rfl

@[simp] theorem ceil_real (x : ℝ) : ceil x = ⌈x⌉₊ := rfl

@[simp] theorem max_real (a b : ℝ) : Scalar.max a b = Max.max a b := by
  unfold Scalar.max
  split_ifs with hlt hle
  · exact (max_eq_left hlt.le).symm
  · exact (max_eq_right (not_lt.1 hlt)).symm
  · exact absurd le_rfl hle

@[simp] theorem min_real (a b : ℝ) : Scalar.min a b = Min.min a b := by
  unfold Scalar.min
  split_ifs with hlt hle
  · exact (min_eq_left hlt.le).symm
  · exact (min_eq_right (not_lt.1 hlt)).symm
  · exact absurd le_rfl hle

theorem zero_real : (0.0 : ℝ) = 0 := by
  norm_num

theorem two_real : (2.0 : ℝ) = 2 := by
  norm_num

@[simp] theorem isPositive_real {x : ℝ} : isPositive x = true ↔ 0 < x := by
  rw [isPositive, isFinite_real, Bool.true_and, decide_eq_true_eq, zero_real]

theorem min?_eq_some_least {as : List ℝ} (h : as ≠ []) : as.min? = some (least as) := by
  have hmin : (Scalar.min : ℝ → ℝ → ℝ) = Min.min := funext₂ min_real
  cases as with
  | nil => exact absurd rfl h
  | cons a as =>
    rw [least, hmin, List.min?_cons']
    exact congrArg some (if_pos le_rfl).symm

theorem least_mem {as : List ℝ} (h : as ≠ []) : least as ∈ as :=
  List.min?_mem (min?_eq_some_least h)

theorem least_le_of_mem {a : ℝ} {as : List ℝ} (h : a ∈ as) : least as ≤ a :=
  (List.le_min?_iff (min?_eq_some_least (List.ne_nil_of_mem h))).1 le_rfl a h

end Scalar

end Lathe
