import Lathe.Decimal.Notation
import Mathlib.Algebra.Group.Nat.Defs
import Mathlib.Data.List.Basic
import Mathlib.Tactic.SplitIfs

/-!
# Written numbers

Whole and real numbers are written in one shape (`Decimal.Written`): a sign, digits, a point with
digits, and an exponent.  No row of digits is empty and no zero leads the digits before the point
(`Written.Proper`), since the digits of a value are zero only if the value is
(`Digits.exponent_le_of_shortest`).

* `Decimal.isFinite_iff` : a value is finite if its bits stand for a finite one.
* `Decimal.intText_toList` : how a whole number is written.
* `Decimal.Layout.exists_write` : how a finite value is written.
-/

namespace Lathe

/-- The longest row of characters with a property ends where one without it follows. -/
theorem span_append {p : Char → Bool} {cs rest : List Char} (h : ∀ c ∈ cs, p c = true)
    (hrest : ∀ c ∈ rest.head?, p c = false) :
    (cs ++ rest).takeWhile p = cs ∧ (cs ++ rest).dropWhile p = rest := by
  rw [List.takeWhile_append_of_pos h, List.dropWhile_append_of_pos h]
  cases rest with
  | nil => simp
  | cons c rest =>
    have hc : p c = false := hrest c rfl
    simp [hc]

namespace Decimal

/-- A number as it is written. -/
structure Written where
  /-- It has a minus sign. -/
  negative : Bool
  /-- The digits before the point. -/
  whole : List Char
  /-- The digits after the point, if there is one. -/
  fraction : Option (List Char)
  /-- The exponent, if there is one: its sign as it is written, whether it is a minus sign, and its
  digits. -/
  exponent : Option (Option Bool × List Char)

/-- Digits, one at least. -/
def IsDigits (cs : List Char) : Prop :=
  cs ≠ [] ∧ ∀ c ∈ cs, c.isDigit = true

namespace Written

/-- The sign of an exponent as it is written. -/
def signChars : Option Bool → List Char
  | none => []
  | some false => ['+']
  | some true => ['-']

/-- The characters of the exponent. -/
def exponentChars (t : Written) : List Char :=
  (t.exponent.map fun e => 'e' :: (signChars e.1 ++ e.2)).getD []

/-- The characters from the point on. -/
def tailChars (t : Written) : List Char :=
  ((t.fraction.map ('.' :: ·)).getD []) ++ t.exponentChars

/-- The characters of a number. -/
def chars (t : Written) : List Char :=
  (if t.negative then ['-'] else []) ++ t.whole ++ t.tailChars

/-- Every row of digits has one at least, and no zero leads others before the point. -/
structure Proper (t : Written) : Prop where
  /-- Before the point. -/
  whole : IsDigits t.whole
  /-- A leading zero stands alone. -/
  leading : t.whole.head? = some '0' → t.whole.length = 1
  /-- After the point. -/
  fraction : ∀ ds ∈ t.fraction, IsDigits ds
  /-- In the exponent. -/
  exponent : ∀ e ∈ t.exponent, IsDigits e.2

/-- A written number starts with a digit or a minus sign. -/
theorem Proper.exists_chars {t : Written} (ht : t.Proper) :
    ∃ c cs, t.chars = c :: cs ∧ (c.isDigit = true ∨ c = '-') := by
  obtain ⟨d, more, hd⟩ := List.exists_cons_of_ne_nil ht.whole.1
  by_cases hneg : t.negative = true
  · exact ⟨'-', _, by rw [chars, if_pos hneg]; rfl, .inr rfl⟩
  · refine ⟨d, more ++ t.tailChars, ?_, .inl (ht.whole.2 d (by simp [hd]))⟩
    rw [chars, if_neg hneg, hd]
    simp

end Written

/-! ### Finite values -/

open Float.Model in
theorem isFinite_unpack_iff {f : Format} (bits : BitVec f.numBits) :
    (UnpackedFloat.unpack f bits).isFinite = true ↔
      UnpackedFloat.unpackExponent bits ≠ -1#f.exponentBits := by
  by_cases htop : UnpackedFloat.unpackExponent bits = -1#f.exponentBits
  · refine iff_of_false (Bool.not_eq_true _ ▸ ?_) (not_not_intro htop)
    by_cases hmantissa : UnpackedFloat.unpackMantissa bits = 0#f.mantissaBitsWithoutImplicit
    · have hunpack : UnpackedFloat.unpack f bits = .infinity _ :=
        (if_pos htop).trans (if_pos hmantissa)
      rw [hunpack]
      rfl
    · have hunpack : UnpackedFloat.unpack f bits = .notANumber :=
        (if_pos htop).trans (if_neg hmantissa)
      rw [hunpack]
      rfl
  · refine iff_of_true ?_ htop
    by_cases hzero : UnpackedFloat.unpackExponent bits = 0#f.exponentBits
    · by_cases hmantissa : UnpackedFloat.unpackMantissa bits = 0#f.mantissaBitsWithoutImplicit
      · have hunpack : UnpackedFloat.unpack f bits = .zero _ :=
          (if_neg htop).trans ((if_pos hzero).trans (dif_pos hmantissa))
        rw [hunpack]
        rfl
      · have hunpack : UnpackedFloat.unpack f bits = .finite _ _ _ _ :=
          (if_neg htop).trans ((if_pos hzero).trans (dif_neg hmantissa))
        rw [hunpack]
        rfl
    · have hunpack : UnpackedFloat.unpack f bits = .finite _ _ _ _ :=
        (if_neg htop).trans (if_neg hzero)
      rw [hunpack]
      rfl

theorem ofFloat_eq_finite_iff (x : Float) :
    (∃ negative m q, Binary.ofFloat x = .finite negative m q) ↔
      x.toBits.toNat / Nat.pow 2 52 % Nat.pow 2 11 ≠ Nat.pow 2 11 - 1 := by
  unfold Binary.ofFloat
  dsimp only
  split_ifs with htop <;> simp [htop]

open Float.Model in
/-- The bits of a value tell whether it is finite. -/
theorem isFinite_iff (x : Float) :
    x.isFinite = true ↔ ∃ negative m q, Binary.ofFloat x = .finite negative m q := by
  have hexponent : (@UnpackedFloat.unpackExponent Format.binary64 x.toBits.toBitVec).toNat =
      x.toBits.toNat / Nat.pow 2 52 % Nat.pow 2 11 := by
    simp [UnpackedFloat.unpackExponent, Nat.shiftRight_eq_div_pow]
  have htop : @UnpackedFloat.unpackExponent Format.binary64 x.toBits.toBitVec = -1#11 ↔
      x.toBits.toNat / Nat.pow 2 52 % Nat.pow 2 11 = Nat.pow 2 11 - 1 := by
    rw [← hexponent, ← BitVec.toNat_inj]
    simp
  have hunpack := @isFinite_unpack_iff Format.binary64 x.toBits.toBitVec
  exact hunpack.trans ((not_congr htop).trans (ofFloat_eq_finite_iff x).symm)

/-! ### Writing -/

theorem isDigits_toDigits (n : Nat) : IsDigits (Nat.toDigits 10 n) :=
  ⟨Nat.toDigits_ne_nil, fun _ => Nat.isDigit_of_mem_toDigits (by decide) (by decide)⟩

/-- Only zero is written with a leading zero. -/
theorem eq_zero_of_head?_toDigits {n : Nat} (h : (Nat.toDigits 10 n).head? = some '0') : n = 0 := by
  induction n using Nat.strongRecOn with
  | ind n ih =>
    by_cases hlt : n < 10
    · rw [Nat.toDigits_of_lt_base hlt] at h
      have hsmall : ∀ n < 10, [Nat.digitChar n].head? = some '0' → n = 0 := by decide
      exact hsmall n hlt h
    · have hle : 10 ≤ n := Nat.le_of_not_lt hlt
      have hne : Nat.toDigits 10 (n / 10) ≠ [] := Nat.toDigits_ne_nil
      rw [Nat.toDigits_of_base_le (by decide) hle, List.head?_append_of_ne_nil _ hne] at h
      have := ih (n / 10) (by omega) h
      omega

theorem length_toDigits_of_head? {n : Nat} (h : (Nat.toDigits 10 n).head? = some '0') :
    (Nat.toDigits 10 n).length = 1 := by
  rw [eq_zero_of_head?_toDigits h]
  rfl

theorem IsDigits.append_zeros {cs : List Char} (h : IsDigits cs) (n : Nat) :
    IsDigits (cs ++ List.replicate n '0') := by
  refine ⟨by simp [h.1], ?_⟩
  intro c hc
  obtain hc | hc := List.mem_append.1 hc
  · exact h.2 c hc
  · rw [List.eq_of_mem_replicate hc]
    rfl

@[simp] theorem natText_toList (n : Nat) : (natText n).toList = Nat.toDigits 10 n := by
  simp [natText]

@[simp] theorem zeros_toList (n : Nat) : (zeros n).toList = List.replicate n '0' := by
  simp [zeros]

theorem isDigits_padded (width n : Nat) : IsDigits (padded width n).toList := by
  simp only [padded, String.toList_append, zeros_toList, natText_toList]
  refine ⟨by simp, ?_⟩
  intro c hc
  obtain hc | hc := List.mem_append.1 hc
  · rw [List.eq_of_mem_replicate hc]
    rfl
  · exact (isDigits_toDigits n).2 c hc

/-- A whole number as it is written. -/
def Written.ofInt (n : Int) : Written := ⟨decide (n < 0), Nat.toDigits 10 n.natAbs, none, none⟩

theorem Written.proper_ofInt (n : Int) : (ofInt n).Proper :=
  ⟨isDigits_toDigits _, length_toDigits_of_head?, by simp [ofInt], by simp [ofInt]⟩

theorem intText_toList (n : Int) : (intText n).toList = (Written.ofInt n).chars := by
  unfold intText
  by_cases h : n < 0 <;>
    simp [h, Written.chars, Written.ofInt, Written.tailChars, Written.exponentChars]

/-! ### The digits of a value -/

theorem lt_pow_digitCount (n : Nat) : n < 10 ^ digitCount n := by
  induction n using Nat.strongRecOn with
  | ind n ih =>
    unfold digitCount
    by_cases hn : n = 0
    · simp [hn]
    · have := ih (n / 10) (by omega)
      rw [if_neg hn, Nat.pow_succ]
      omega

theorem pow_digitCount_le {n : Nat} (hn : n ≠ 0) : 10 ^ (digitCount n - 1) ≤ n := by
  induction n using Nat.strongRecOn with
  | ind n ih =>
    unfold digitCount
    rw [if_neg hn, Nat.add_sub_cancel]
    by_cases h : n / 10 = 0
    · have hzero : digitCount (n / 10) = 0 := by
        unfold digitCount
        rw [if_pos h]
      rw [hzero]
      omega
    · have hle := ih (n / 10) (by omega) h
      have hpos : digitCount (n / 10) ≠ 0 := by
        unfold digitCount
        rw [if_neg h]
        omega
      obtain ⟨k, hk⟩ := Nat.exists_eq_succ_of_ne_zero hpos
      rw [hk, Nat.succ_sub_one] at hle
      rw [hk, Nat.pow_succ]
      omega

namespace Fraction

variable {x : Fraction}

/-- A positive fraction is not below the power of ten of its leading digit. -/
theorem le_of_order (hnum : x.num ≠ 0) (hden : x.den ≠ 0) :
    x.den * 10 ^ x.order.toNat ≤ x.num * 10 ^ (-x.order).toNat := by
  unfold order
  by_cases hle : x.den ≤ x.num
  · have hq : x.num / x.den ≠ 0 := Nat.ne_of_gt (Nat.div_pos hle (Nat.pos_of_ne_zero hden))
    have hpow := pow_digitCount_le hq
    have hnat : ((digitCount (x.num / x.den) : Int) - 1).toNat =
        digitCount (x.num / x.den) - 1 := by
      omega
    have hneg : (-((digitCount (x.num / x.den) : Int) - 1)).toNat = 0 ∨
        digitCount (x.num / x.den) = 0 := by omega
    rw [if_pos hle, hnat]
    calc x.den * 10 ^ (digitCount (x.num / x.den) - 1) ≤ x.den * (x.num / x.den) :=
          Nat.mul_le_mul_left _ hpow
      _ ≤ x.num := Nat.mul_div_le _ _
      _ ≤ x.num * 10 ^ _ := Nat.le_mul_of_pos_right _ (Nat.pow_pos (by decide))
  · rw [if_neg hle]
    have hlt := lt_pow_digitCount ((x.den + x.num - 1) / x.num - 1)
    generalize digitCount ((x.den + x.num - 1) / x.num - 1) = k at hlt ⊢
    have hceil : (x.den + x.num - 1) / x.num ≤ 10 ^ k := by omega
    have hk : (-(-(k : Int))).toNat = k := by omega
    have hk' : (-(k : Int)).toNat = 0 := by omega
    rw [hk, hk', Nat.pow_zero, Nat.mul_one]
    have hmod := Nat.div_add_mod (x.den + x.num - 1) x.num
    have hlt := Nat.mod_lt (x.den + x.num - 1) (Nat.pos_of_ne_zero hnum)
    have hmul := Nat.mul_le_mul_left x.num hceil
    omega

/-- So it is at least one in units of a power of ten that is not above. -/
theorem inUnits_pos (hnum : x.num ≠ 0) (hden : x.den ≠ 0) {k : Int} (hk : k ≤ x.order) :
    (x.inUnits k).num / (x.inUnits k).den ≠ 0 := by
  have hle : (x.inUnits k).den ≤ (x.inUnits k).num := by
    calc x.den * 10 ^ k.toNat ≤ x.den * 10 ^ x.order.toNat :=
          Nat.mul_le_mul_left _ (Nat.pow_le_pow_right (by decide) (by omega))
      _ ≤ x.num * 10 ^ (-x.order).toNat := le_of_order hnum hden
      _ ≤ x.num * 10 ^ (-k).toNat :=
          Nat.mul_le_mul_left _ (Nat.pow_le_pow_right (by decide) (by omega))
  have hpos : 0 < (x.inUnits k).den :=
    Nat.mul_pos (Nat.pos_of_ne_zero hden) (Nat.pow_pos (by decide))
  exact Nat.ne_of_gt (Nat.div_pos hle hpos)

end Fraction

namespace Digits

variable {r : Rounding} {tie : Tie}

/-- Zero does not round to a positive value. -/
theorem Rounding.holds_zero (hlow : r.low.num ≠ 0) (k : Int) : r.holds 0 k = false := by
  have hpos : 0 < (r.low.inUnits k).num :=
    Nat.mul_pos (Nat.pos_of_ne_zero hlow) (Nat.pow_pos (by decide))
  unfold Rounding.holds
  dsimp only
  split_ifs
  · simp
    omega
  · simp

theorem Rounding.significand_of_pick? (hlow : r.low.num ≠ 0) {k : Int} {d : Digits}
    (h : r.pick? tie k = some d) : d.significand ≠ 0 := by
  unfold Rounding.pick? at h
  dsimp only at h
  generalize hbelow : (r.value.inUnits k).num / (r.value.inUnits k).den = below at h
  have hzero : r.holds below k = true → below ≠ 0 := by
    rintro hholds rfl
    rw [Rounding.holds_zero hlow] at hholds
    cases hholds
  split at h
  · cases h
  · rename_i hholds _
    obtain rfl := Option.some.inj h
    exact hzero hholds
  · obtain rfl := Option.some.inj h
    exact Nat.succ_ne_zero below
  · rename_i hholds _
    have hne := hzero hholds
    cases tie <;> dsimp only at h <;> split_ifs at h <;> obtain rfl := Option.some.inj h
    all_goals first
      | exact hne
      | exact Nat.succ_ne_zero below

theorem Rounding.significand_search (hlow : r.low.num ≠ 0) (hnum : r.value.num ≠ 0)
    (hden : r.value.den ≠ 0) (n : Nat) {k : Int} (hk : k ≤ r.value.order) :
    (r.search tie k n).significand ≠ 0 := by
  induction n generalizing k with
  | zero => exact Fraction.inUnits_pos hnum hden hk
  | succ n ih =>
    unfold Rounding.search
    cases h : r.pick? tie k with
    | some d => exact Rounding.significand_of_pick? hlow h
    | none => exact ih (by omega)

theorem significand_dropZeros {d : Digits} (hd : d.significand ≠ 0) (n : Nat) :
    (d.dropZeros n).significand ≠ 0 := by
  induction n generalizing d with
  | zero => exact hd
  | succ n ih =>
    unfold dropZeros
    split_ifs with h
    · exact ih (by simp; omega)
    · exact hd

/-- Only zero is written with the digit zero alone, and then it is written without an exponent. -/
theorem exponent_le_of_shortest (tie : Tie) (m : Nat) (q : Int) :
    (shortest tie m q).significand = 0 → (shortest tie m q).exponent ≤ 0 := by
  unfold shortest
  by_cases hm : m = 0
  · simp [hm]
  · rw [if_neg hm]
    intro hzero
    have hpow : ∀ k : Nat, Nat.pow 2 k ≠ 0 := fun k => Nat.ne_of_gt (Nat.pow_pos (by decide))
    refine absurd hzero (significand_dropZeros (Rounding.significand_search ?_ ?_ ?_ _
      (Int.le_refl _)) _)
    · refine Nat.mul_ne_zero ?_ (hpow _)
      split_ifs <;> omega
    · exact Nat.mul_ne_zero (by omega) (hpow _)
    · exact hpow _

end Digits

namespace Layout

theorem exists_positional (l : Layout) (h : l.keepsPoint = true) {d : Digits}
    (hd : d.significand = 0 → d.exponent ≤ 0) (negative : Bool) :
    ∃ t : Written, t.Proper ∧ t.negative = negative ∧ t.fraction.isSome = true ∧
      (l.positional d).toList = t.whole ++ t.tailChars := by
  unfold positional
  by_cases hexp : 0 ≤ d.exponent
  · refine ⟨⟨negative, Nat.toDigits 10 d.significand ++ List.replicate d.exponent.toNat '0',
      some ['0'], none⟩, ⟨(isDigits_toDigits _).append_zeros _, ?_, ?_, by simp⟩, rfl, rfl, ?_⟩
    · intro hzero
      rw [List.head?_append_of_ne_nil _ Nat.toDigits_ne_nil] at hzero
      have hexponent : d.exponent.toNat = 0 := by
        have := hd (eq_zero_of_head?_toDigits hzero)
        omega
      simp [hexponent, length_toDigits_of_head? hzero]
    · simp [IsDigits]
    · simp [hexp, h, Written.tailChars, Written.exponentChars]
  · refine ⟨⟨negative, Nat.toDigits 10 (d.significand / Nat.pow 10 (-d.exponent).toNat),
      some (padded (-d.exponent).toNat (d.significand % Nat.pow 10 (-d.exponent).toNat)).toList,
      none⟩, ⟨isDigits_toDigits _, length_toDigits_of_head?, ?_, by simp⟩, rfl, rfl, ?_⟩
    · simp [isDigits_padded]
    · simp [hexp, Written.tailChars, Written.exponentChars]

theorem exists_scientific (l : Layout) (d : Digits) (negative : Bool) :
    ∃ t : Written, t.Proper ∧ t.negative = negative ∧ t.exponent.isSome = true ∧
      (l.scientific d).toList = t.whole ++ t.tailChars := by
  obtain ⟨hne, hdigit⟩ := isDigits_toDigits d.significand
  obtain ⟨first, rest, hdigits⟩ := List.exists_cons_of_ne_nil hne
  rw [hdigits] at hdigit
  obtain ⟨hfirst, hrest⟩ := List.forall_mem_cons.1 hdigit
  let sign : Option Bool :=
    if leading d < 0 then some true else if l.exponentPlus then some false else none
  refine ⟨⟨negative, [first], if rest = [] then none else some rest,
    some (sign, Nat.toDigits 10 (leading d).natAbs)⟩, ⟨?_, fun _ => rfl, ?_, ?_⟩, rfl, rfl, ?_⟩
  · simp [IsDigits, hfirst]
  · intro ds hds
    by_cases h : rest = []
    · simp [h] at hds
    · obtain rfl : rest = ds := by simpa [h] using hds
      exact ⟨h, hrest⟩
  · simp [isDigits_toDigits]
  · have hsign : ((if l.exponentPlus = true ∧ 0 ≤ leading d then "+" else "").toList ++
        (intText (leading d)).toList) =
          Written.signChars sign ++ Nat.toDigits 10 (leading d).natAbs := by
      rw [intText_toList]
      by_cases hneg : leading d < 0
      · simp [sign, hneg, Written.signChars, Written.chars, Written.ofInt, Written.tailChars,
          Written.exponentChars]
      · by_cases hplus : l.exponentPlus = true <;>
          simp [sign, hneg, hplus, Int.not_lt.1 hneg, Written.signChars, Written.chars,
            Written.ofInt, Written.tailChars, Written.exponentChars]
    have htail : (if (String.ofList rest).isEmpty then "" else "." ++ String.ofList rest).toList =
        ((if rest = [] then none else some rest).map ('.' :: ·)).getD [] := by
      cases rest <;> simp
    simp only [scientific, hdigits, List.take_succ_cons, List.take_zero, List.drop_succ_cons,
      List.drop_zero, String.toList_append, htail, Written.tailChars, Written.exponentChars]
    simp [← hsign]

theorem exists_magnitude (l : Layout) (h : l.keepsPoint = true) {d : Digits}
    (hd : d.significand = 0 → d.exponent ≤ 0) (negative : Bool) :
    ∃ t : Written, t.Proper ∧ t.negative = negative ∧
      (t.fraction.isSome = true ∨ t.exponent.isSome = true) ∧
      (l.magnitude d).toList = t.whole ++ t.tailChars := by
  unfold magnitude
  dsimp only
  split_ifs
  · obtain ⟨t, ht, hneg, hexp, htext⟩ := l.exists_scientific d negative
    exact ⟨t, ht, hneg, .inr hexp, htext⟩
  · obtain ⟨t, ht, hneg, hfrac, htext⟩ := l.exists_positional h hd negative
    exact ⟨t, ht, hneg, .inl hfrac, htext⟩

/-- A finite value is written with a point or an exponent, where the layout keeps points. -/
theorem exists_write (l : Layout) (h : l.keepsPoint = true) {x : Float} (hx : x.isFinite = true) :
    ∃ t : Written, t.Proper ∧ (t.fraction.isSome = true ∨ t.exponent.isSome = true) ∧
      (l.write x).toList = t.chars := by
  obtain ⟨negative, m, q, hbinary⟩ := (isFinite_iff x).1 hx
  obtain ⟨t, ht, rfl, hreal, htext⟩ := l.exists_magnitude h
    (Digits.exponent_le_of_shortest l.tie m q) negative
  refine ⟨t, ht, hreal, ?_⟩
  rw [write, hbinary]
  cases hneg : t.negative <;> simp [Written.chars, hneg, htext]

end Layout

end Decimal

end Lathe
