import Lathe.Proofs.Decimal.Written
import Lathe.Scalar.Binary64
import Mathlib

/-!
# The exact value of a binary64 number

A finite value is a rational number (`Binary.rational?`).  What is decided on the bits is decided on
that number:

* `Binary.toNat?_eq_some_iff` : the natural number that a value is;
* `Decimal.le_iff_rational` : the comparison of two finite values;
* `Decimal.toUInt32_of_rational?`, `Decimal.toUInt16_of_rational?` : a natural number in range is
  its own truncation.
-/

namespace Lathe

namespace Decimal

namespace Binary

/-- A sign as a factor. -/
def signFactor (negative : Bool) : ℚ :=
  if negative then -1 else 1

/-- The number that a value stands for, if it is finite. -/
def rational? : Binary → Option ℚ
  | finite negative m q => some (signFactor negative * (m * 2 ^ q))
  | infinite _ | notANumber => none

theorem toNat?_finite_eq_some_iff {negative : Bool} {m n : ℕ} {q : ℤ} :
    (finite negative m q).toNat? = some n ↔ signFactor negative * (m * 2 ^ q) = (n : ℚ) := by
  simp only [toNat?, Nat.pow_eq]
  split_ifs with hm hneg hq hdvd
  · simp [hm, eq_comm]
  · -- a negative value other than zero is no natural number
    have hmpos : (0 : ℚ) < m := by exact_mod_cast Nat.pos_of_ne_zero hm
    have hlt := mul_pos hmpos (zpow_pos (by norm_num : (0 : ℚ) < 2) q)
    refine iff_of_false nofun fun h => ?_
    have hn : (0 : ℚ) ≤ n := n.cast_nonneg
    rw [signFactor, if_pos hneg] at h
    linarith
  · obtain ⟨k, rfl⟩ := Int.eq_ofNat_of_zero_le hq
    rw [signFactor, if_neg hneg, one_mul, Option.some.injEq, Int.toNat_natCast, zpow_natCast]
    norm_cast
  all_goals
    obtain ⟨k, hk⟩ := Int.eq_ofNat_of_zero_le (show 0 ≤ -q by omega)
    obtain rfl : q = -(k : ℤ) := by omega
    rw [neg_neg, Int.toNat_natCast] at hdvd
    rw [signFactor, if_neg hneg, one_mul, zpow_neg, zpow_natCast, ← div_eq_mul_inv,
      div_eq_iff (by positivity)]
  · rw [neg_neg, Int.toNat_natCast, Option.some.injEq,
      Nat.div_eq_iff_eq_mul_left (by positivity) (Nat.dvd_of_mod_eq_zero hdvd)]
    norm_cast
  · refine iff_of_false nofun fun h => hdvd ?_
    have hmul : m = n * 2 ^ k := by exact_mod_cast h
    rw [hmul, Nat.mul_mod_left]

/-- **The natural number that a value is, is its exact value.** -/
theorem toNat?_eq_some_iff {b : Binary} {n : ℕ} :
    b.toNat? = some n ↔ b.rational? = some (n : ℚ) := by
  cases b with
  | finite negative m q =>
    rw [toNat?_finite_eq_some_iff]
    exact Option.some_inj.symm
  | infinite negative => exact ⟨nofun, nofun⟩
  | notANumber => exact ⟨nofun, nofun⟩

end Binary

/-- The number that a float stands for, if it is finite. -/
def rational? (x : Float) : Option ℚ :=
  (Binary.ofFloat x).rational?

/-- A float is finite if it stands for a number. -/
theorem isFinite_iff_rational? {x : Float} : x.isFinite = true ↔ ∃ r, rational? x = some r := by
  rw [isFinite_iff, rational?]
  cases Binary.ofFloat x with
  | finite negative m q => exact ⟨fun _ => ⟨_, rfl⟩, fun _ => ⟨_, _, _, rfl⟩⟩
  | infinite negative => exact ⟨nofun, nofun⟩
  | notANumber => exact ⟨nofun, nofun⟩

/-! ### Bits -/

section

open Float.Model UnpackedFloat

/-- The sign as a flag. -/
def isNegative : Sign → Bool
  | .negative => true
  | .positive => false

/-- What unpacked bits stand for. -/
def ofUnpacked : UnpackedFloat → Binary
  | .infinity s => .infinite (isNegative s)
  | .notANumber => .notANumber
  | .zero s => .finite (isNegative s) 0 (-1074)
  | .finite s m e _ => .finite (isNegative s) m e

theorem ofUnpacked_unpack (x : Float) : ofUnpacked x.toModel.unpack = Binary.ofFloat x := by
  have hlt : x.toBits.toNat < 2 ^ 64 := x.toBits.toNat_lt
  have hexponent : (@unpackExponent Format.binary64 x.toBits.toBitVec).toNat =
      x.toBits.toNat / 2 ^ 52 % 2 ^ 11 := by
    simp [unpackExponent, Nat.shiftRight_eq_div_pow]
  have hmantissa : (@unpackMantissa Format.binary64 x.toBits.toBitVec).toNat =
      x.toBits.toNat % 2 ^ 52 := by
    simp [unpackMantissa]
  have hsign : (@unpackSign Format.binary64 x.toBits.toBitVec).toNat = x.toBits.toNat / 2 ^ 63 := by
    simp [unpackSign, Nat.shiftRight_eq_div_pow]
    omega
  change ofUnpacked (UnpackedFloat.unpack Format.binary64 x.toBits.toBitVec) = _
  unfold UnpackedFloat.unpack Binary.ofFloat
  simp only [Nat.pow_eq, ← hexponent, ← hmantissa, ← hsign]
  have hnegative : ∀ b : BitVec 1, decide (b.toNat = 1) = isNegative (Sign.ofBitVec b) := by decide
  have htop : ∀ e : BitVec 11, e.toNat = 2 ^ 11 - 1 ↔ e = -1#11 := fun e =>
    @BitVec.toNat_inj 11 e (-1#11)
  have hlow : ∀ e : BitVec 11, e.toNat = 0 ↔ e = 0#11 := fun e => @BitVec.toNat_inj 11 e 0#11
  have hzero : ∀ m : BitVec 52, m.toNat = 0 ↔ m = 0#52 := fun m => @BitVec.toNat_inj 52 m 0#52
  have hnormal : ∀ m : BitVec 52, (1#1 ++ m).toNat = 2 ^ 52 + m.toNat := by
    intro m
    rw [BitVec.toNat_append, ← Nat.shiftLeft_add_eq_or_of_lt m.isLt]
    rfl
  simp only [htop, hlow, hzero, hnegative]
  split_ifs with h₁ h₂ h₃ h₄
  · rfl
  · rfl
  · simp [ofUnpacked, h₄]
  · simp [ofUnpacked, h₃, Format.exponentBias]
  · simp [ofUnpacked, hnormal, Format.exponentBias]

/-- A mantissa and an exponent are those of a finite value. -/
structure Canonical (m : ℕ) (q : ℤ) : Prop where
  /-- The mantissa is short. -/
  short : m < 2 ^ 53
  /-- The exponent is not below the least one. -/
  least : -1074 ≤ q
  /-- The mantissa is full unless the exponent is the least one. -/
  full : 2 ^ 52 ≤ m ∨ q = -1074

theorem canonical_of_ofFloat {x : Float} {negative : Bool} {m : ℕ} {q : ℤ}
    (h : Binary.ofFloat x = .finite negative m q) : Canonical m q := by
  have hfraction : x.toBits.toNat % 2 ^ 52 < 2 ^ 52 := Nat.mod_lt _ (by norm_num)
  unfold Binary.ofFloat at h
  simp only [Nat.pow_eq] at h
  split_ifs at h with htop hlow
  · cases h
    exact ⟨by omega, le_rfl, .inr rfl⟩
  · cases h
    exact ⟨by omega, by omega, .inl (by omega)⟩

/-- Of two values the one with the larger exponent is the larger one. -/
theorem Canonical.lt_of_lt {m n : ℕ} {p q : ℤ} (h : Canonical m p) (h' : Canonical n q)
    (hpq : p < q) : (m : ℚ) * 2 ^ p < n * 2 ^ q := by
  have hleast := h.least
  have hn : ((2 ^ 52 : ℕ) : ℚ) ≤ n := Nat.cast_le.2 (h'.full.resolve_right (by omega))
  have hm : (m : ℚ) < (2 ^ 53 : ℕ) := Nat.cast_lt.2 h.short
  have hle : (2 : ℚ) ^ (p + 1) ≤ 2 ^ q := zpow_le_zpow_right₀ (by norm_num) hpq
  calc (m : ℚ) * 2 ^ p < (2 ^ 53 : ℕ) * 2 ^ p :=
        mul_lt_mul_of_pos_right hm (zpow_pos (by norm_num) p)
    _ = (2 ^ 52 : ℕ) * 2 ^ (p + 1) := by
        rw [zpow_add_one₀ (by norm_num)]
        push_cast
        ring
    _ ≤ n * 2 ^ q := mul_le_mul hn hle (zpow_nonneg (by norm_num) _) (Nat.cast_nonneg n)

/-- Magnitudes are compared by exponent, then by mantissa. -/
theorem compare_magnitude {m n : ℕ} {p q : ℤ} (h : Canonical m p) (h' : Canonical n q) :
    (compare p q).then (compare m n) = compare ((m : ℚ) * 2 ^ p) (n * 2 ^ q) := by
  rcases lt_trichotomy p q with hpq | rfl | hpq
  · rw [compare_lt_iff_lt.2 hpq, compare_lt_iff_lt.2 (h.lt_of_lt h' hpq)]
    rfl
  · have hpow : (0 : ℚ) < 2 ^ p := zpow_pos (by norm_num) p
    rw [compare_eq_iff_eq.2 rfl, Ordering.eq_then]
    rcases lt_trichotomy m n with h | rfl | h
    · rw [compare_lt_iff_lt.2 h, compare_lt_iff_lt.2]
      exact mul_lt_mul_of_pos_right (Nat.cast_lt.2 h) hpow
    · rw [compare_eq_iff_eq.2 rfl, compare_eq_iff_eq.2 rfl]
    · rw [compare_gt_iff_gt.2 h, compare_gt_iff_gt.2]
      exact mul_lt_mul_of_pos_right (Nat.cast_lt.2 h) hpow
  · rw [compare_gt_iff_gt.2 hpq, compare_gt_iff_gt.2 (h'.lt_of_lt h hpq)]
    rfl

theorem compare_swap (a b : ℚ) : (compare a b).swap = compare (-a) (-b) := by
  rw [← Std.OrientedOrd.eq_swap]
  rcases lt_trichotomy a b with h | rfl | h
  · rw [compare_gt_iff_gt.2 h, compare_gt_iff_gt.2 (neg_lt_neg h)]
  · rw [compare_eq_iff_eq.2 rfl, compare_eq_iff_eq.2 rfl]
  · rw [compare_lt_iff_lt.2 h, compare_lt_iff_lt.2 (neg_lt_neg h)]

/-- An unpacked float stands for a number. -/
inductive StandsFor : UnpackedFloat → ℚ → Prop where
  /-- Both zeros are zero. -/
  | zero (s : Sign) : StandsFor (.zero s) 0
  /-- A positive value. -/
  | positive {m : ℕ} {q : ℤ} (hm : 0 < m) (h : Canonical m q) :
      StandsFor (.finite .positive m q hm) (m * 2 ^ q)
  /-- A negative value. -/
  | negative {m : ℕ} {q : ℤ} (hm : 0 < m) (h : Canonical m q) :
      StandsFor (.finite .negative m q hm) (-(m * 2 ^ q))

theorem standsFor_unpack {x : Float} {r : ℚ} (h : rational? x = some r) :
    StandsFor x.toModel.unpack r := by
  have hof := ofUnpacked_unpack x
  unfold rational? at h
  cases hu : x.toModel.unpack with
  | infinity s =>
    rw [← hof, hu] at h
    cases h
  | notANumber =>
    rw [← hof, hu] at h
    cases h
  | zero s =>
    rw [← hof, hu] at h
    obtain rfl : r = 0 := by simpa [ofUnpacked, Binary.rational?, eq_comm] using h
    exact .zero s
  | finite s m q hm =>
    rw [hu] at hof
    rw [← hof] at h
    obtain rfl := Option.some.inj h
    have hc := canonical_of_ofFloat hof.symm
    cases s with
    | positive =>
      rw [isNegative, Binary.signFactor, if_neg nofun, one_mul]
      exact .positive hm hc
    | negative =>
      rw [isNegative, Binary.signFactor, if_pos rfl, neg_one_mul]
      exact .negative hm hc

/-- Unpacked floats are compared as the numbers they stand for. -/
theorem StandsFor.compare_eq {u v : UnpackedFloat} {r s : ℚ} (hu : StandsFor u r)
    (hv : StandsFor v s) : u.compare v = some (compare r s) := by
  have hpos : ∀ {m : ℕ} {q : ℤ}, 0 < m → (0 : ℚ) < m * 2 ^ q := fun hm =>
    mul_pos (Nat.cast_pos.2 hm) (zpow_pos (by norm_num) _)
  cases hu with
  | zero s =>
    cases hv with
    | zero => exact congrArg some (compare_eq_iff_eq.2 rfl).symm
    | positive hn _ => exact congrArg some (compare_lt_iff_lt.2 (hpos hn)).symm
    | negative hn _ => exact congrArg some (compare_gt_iff_gt.2 (neg_neg_of_pos (hpos hn))).symm
  | positive hm hc =>
    cases hv with
    | zero => exact congrArg some (compare_gt_iff_gt.2 (hpos hm)).symm
    | positive hn hd => exact congrArg some (compare_magnitude hc hd)
    | negative hn _ =>
      exact congrArg some
        (compare_gt_iff_gt.2 ((neg_neg_of_pos (hpos hn)).trans (hpos hm))).symm
  | negative hm hc =>
    cases hv with
    | zero => exact congrArg some (compare_lt_iff_lt.2 (neg_neg_of_pos (hpos hm))).symm
    | positive hn _ =>
      exact congrArg some
        (compare_lt_iff_lt.2 ((neg_neg_of_pos (hpos hm)).trans (hpos hn))).symm
    | negative hn hd =>
      rw [← compare_swap, ← compare_magnitude hc hd]
      rfl

/-- **Finite floats are compared as the numbers they stand for.** -/
theorem le_iff_rational {x y : Float} {r s : ℚ} (hx : rational? x = some r)
    (hy : rational? y = some s) : x ≤ y ↔ r ≤ s := by
  have hle : x ≤ y ↔ (x.toModel.unpack.compare y.toModel.unpack).any (·.isLE) = true :=
    decide_eq_true_iff
  rw [hle, (standsFor_unpack hx).compare_eq (standsFor_unpack hy)]
  exact Std.LawfulBCmp.isLE_iff_le

/-! ### Truncation -/

theorem mantissa_shiftRight (t : ExtendedMantissa) (n : ℕ) :
    (t >>> n).mantissa = t.mantissa / 2 ^ n := by
  induction n with
  | zero => exact (Nat.div_one _).symm
  | succ n ih =>
    change (t >>> n).mantissa / 2 = _
    rw [ih, Nat.div_div_eq_div_mul, Nat.pow_succ]

theorem toInt_of_standsFor {u : UnpackedFloat} {n : ℕ} (h : StandsFor u n) (low high : ℤ) :
    u.toInt low high = n := by
  generalize hr : (n : ℚ) = r at h
  cases h with
  | zero s =>
    obtain rfl : n = 0 := by exact_mod_cast hr
    rfl
  | @positive m q hm hc =>
    change (((ExtendedMantissa.mk (m <<< (q - 0).toNat) false false) >>>
      (0 - (q - (q - 0).toNat)).toNat).mantissa : ℤ) = n
    rw [mantissa_shiftRight, Nat.cast_inj, sub_zero, Nat.shiftLeft_eq]
    rcases le_total 0 q with hq | hq
    · obtain ⟨k, rfl⟩ := Int.eq_ofNat_of_zero_le hq
      have hmul : n = m * 2 ^ k := by exact_mod_cast hr
      simp [hmul]
    · obtain ⟨k, hk⟩ := Int.eq_ofNat_of_zero_le (neg_nonneg.2 hq)
      obtain rfl : q = -(k : ℤ) := by omega
      rw [zpow_neg, zpow_natCast, ← div_eq_mul_inv, eq_div_iff (by positivity)] at hr
      have hmul : n * 2 ^ k = m := by exact_mod_cast hr
      simp [← hmul]
  | @negative m q hm hc =>
    have hpos : (0 : ℚ) < m * 2 ^ q := mul_pos (Nat.cast_pos.2 hm) (zpow_pos (by norm_num) _)
    have hn : (0 : ℚ) ≤ n := n.cast_nonneg
    linarith

/-- **A natural number in range is its own truncation** to 32 bits. -/
theorem toUInt32_of_rational? {x : Float} {n : ℕ} (h : rational? x = some (n : ℚ))
    (hn : n < 2 ^ 32) : x.toUInt32.toNat = n := by
  change (UInt32.ofNatClamp (x.toModel.unpack.toInt 0 (UInt32.size - 1)).toNat).toNat = n
  rw [toInt_of_standsFor (standsFor_unpack h), Int.toNat_natCast]
  exact UInt32.toNat_ofNatClamp_of_lt hn

/-- A natural number in range is its own truncation to 16 bits. -/
theorem toUInt16_of_rational? {x : Float} {n : ℕ} (h : rational? x = some (n : ℚ))
    (hn : n < 2 ^ 16) : x.toUInt16.toNat = n := by
  change (UInt16.ofNatClamp (x.toModel.unpack.toInt 0 (UInt16.size - 1)).toNat).toNat = n
  rw [toInt_of_standsFor (standsFor_unpack h), Int.toNat_natCast]
  exact UInt16.toNat_ofNatClamp_of_lt hn

end

end Decimal

end Lathe
