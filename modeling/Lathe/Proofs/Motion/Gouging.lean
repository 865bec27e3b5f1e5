import Lathe.Proofs.Motion.Polyline

/-!
# Roughing passes and the finished contour

A pass of a roughing cycle is to stop before the contour: wherever the contour with the finishing
allowance is above the diameter of the pass, it is to lie behind the place where the pass ends.

A pass above the finished diameter always does, and so does one whose stop is a crossing of the
contour.  The pass at the finished diameter runs to the deepest place of the contour if no segment
crosses the smallest diameter.  That is right where the contour never leaves it; where it leaves
it over a segment too flat to interpolate, the pass cuts through all that comes after.
`Roughing.spares_iff` says that this is the only way to cut into the contour.
-/

namespace Lathe

namespace Roughing

open Contour Position

variable {c : Roughing ℝ} {s : CycleSettings ℝ} {contour : List (ContourPoint ℝ)}
  {stamp : CycleLine}

/-- A pass that runs to `z` at a diameter leaves all of the contour with its allowance. -/
def Clears (c : Roughing ℝ) (contour : List (ContourPoint ℝ)) (diameter z : ℝ) : Prop :=
  ∀ p, Passes contour p → diameter < p.x + |c.allowanceX| → p.z + |c.allowanceZ| ≤ z

/-- No cut of the cycle goes into the contour with its allowance. -/
def Spares (c : Roughing ℝ) (s : CycleSettings ℝ) (contour : List (ContourPoint ℝ))
    (stamp : CycleLine) : Prop :=
  ∀ q ∈ (c.expand s contour stamp).points, q.kind = .roughCut → c.Clears contour q.x q.z

/-- When a cycle cuts into its contour. -/
structure Gouges (c : Roughing ℝ) (s : CycleSettings ℝ) (contour : List (ContourPoint ℝ)) :
    Prop where
  /-- The passes get down to the finished diameter. -/
  reaches : c.start.x - passLimit * (2 * c.cut.depth) ≤ c.finishDiameter contour
  /-- No segment from the smallest diameter is steep enough to interpolate. -/
  flat : ∀ a b, (a, b) ∈ segments contour → a.x = smallest contour →
    b.x - a.x ≤ s.interpolationTolerance
  /-- The contour leaves the smallest diameter before its deepest place. -/
  leaves : ∃ a b, (a, b) ∈ segments contour ∧ a.x = smallest contour ∧ a.x < b.x ∧
    deepest contour < a.z
  /-- The deepest place with the allowance is not at the face. -/
  cuts : ∃ face ∈ contour.head?, deepest contour + |c.allowanceZ| < face.z - s.faceTolerance

/-! ### The cuts of a cycle -/

theorem mem_pass_iff {q : Point ℝ} {faceZ : ℝ} {i : ℕ} :
    q ∈ c.pass s contour faceZ stamp i ↔
      c.stop s contour (c.passDiameter contour i) < faceZ - s.faceTolerance ∧
        q ∈ c.passPoints stamp (stamp.block + i) (c.passDiameter contour i)
          (c.stop s contour (c.passDiameter contour i)) := by
  simp only [pass]
  split_ifs with h
  · exact ⟨nofun, fun hq => absurd h (not_le.2 hq.1)⟩
  · exact ⟨fun hq => ⟨not_le.1 h, hq⟩, And.right⟩

theorem of_mem_passPoints {q : Point ℝ} {block : ℕ} {diameter z : ℝ}
    (hq : q ∈ c.passPoints stamp block diameter z) (hk : q.kind = .roughCut) :
    q.x = diameter ∧ q.z = z := by
  simp only [passPoints, List.mem_cons, List.not_mem_nil, or_false] at hq
  rcases hq with rfl | rfl | rfl | rfl | rfl | rfl <;> simp [Point.make] at hk ⊢

theorem kind_ne_of_mem_outline {q : Point ℝ} {block : ℕ}
    (hq : q ∈ c.outline contour stamp block) : q.kind ≠ .roughCut := by
  rcases List.mem_cons.1 hq with rfl | hq
  · exact nofun
  · obtain ⟨p, -, rfl⟩ := List.mem_map.1 hq
    exact nofun

/-- The cuts of a cycle are the stops of its passes that are not at the face. -/
theorem of_mem_expand {q : Point ℝ} (hq : q ∈ (c.expand s contour stamp).points)
    (hk : q.kind = .roughCut) :
    ∃ face ∈ contour.head?, ∃ i, i ≤ c.passCount contour ∧ q.x = c.passDiameter contour i ∧
      q.z = c.stop s contour q.x ∧ q.z < face.z - s.faceTolerance := by
  cases contour with
  | nil => cases hq
  | cons face rest =>
    rcases List.mem_append.1 hq with hq | hq
    · rcases List.mem_append.1 hq with hq | hq
      · obtain ⟨i, hi, hq⟩ := List.mem_flatMap.1 hq
        have hle : i ≤ c.passCount (face :: rest) := by
          have := (List.mem_range'_1.1 hi).2
          omega
        obtain ⟨hface, hq⟩ := mem_pass_iff.1 hq
        obtain ⟨hx, hz⟩ := of_mem_passPoints hq hk
        rw [hx, hz]
        exact ⟨face, rfl, i, hle, rfl, rfl, hface⟩
      · exact absurd hk (kind_ne_of_mem_outline hq)
    · rw [List.mem_singleton.1 hq] at hk
      cases hk

theorem exists_mem_expand (stamp : CycleLine) {face : ContourPoint ℝ} {i : ℕ}
    (hf : face ∈ contour.head?) (h1 : 1 ≤ i) (hi : i ≤ c.passCount contour)
    (hz : c.stop s contour (c.passDiameter contour i) < face.z - s.faceTolerance) :
    ∃ q ∈ (c.expand s contour stamp).points, q.kind = .roughCut ∧
      q.x = c.passDiameter contour i ∧ q.z = c.stop s contour (c.passDiameter contour i) := by
  cases contour with
  | nil => cases hf
  | cons a rest =>
    obtain rfl : a = face := Option.some.inj hf
    let q : Point ℝ := .make ⟨c.passDiameter (a :: rest) i, c.stop s (a :: rest)
      (c.passDiameter (a :: rest) i)⟩ .roughCut (stamp.block + i) c.feed (some stamp.line) stamp.aux
    have hpass : q ∈ c.pass s (a :: rest) a.z stamp i :=
      mem_pass_iff.2 ⟨hz, by simp [passPoints, q]⟩
    refine ⟨q, ?_, rfl, rfl, rfl⟩
    refine List.mem_append_left _ (List.mem_append_left _ (List.mem_flatMap.2 ⟨i, ?_, hpass⟩))
    rw [List.mem_range'_1]
    omega

/-! ### Diameters of passes -/

theorem passDiameter_eq (i : ℕ) : c.passDiameter contour i =
    max (c.start.x - i * (2 * c.cut.depth)) (c.finishDiameter contour) := by
  rw [passDiameter, Scalar.max_real, Scalar.ofNat_real]
  norm_num

theorem finishDiameter_le_passDiameter (i : ℕ) :
    c.finishDiameter contour ≤ c.passDiameter contour i := by
  rw [passDiameter_eq]
  exact le_max_right _ _

theorem passCount_eq : c.passCount contour =
    max 1 (min passLimit ⌈(c.start.x - c.finishDiameter contour) / (2 * c.cut.depth)⌉₊) := by
  rw [passCount, passesBetween, Scalar.isFinite_real, if_pos rfl, Scalar.ceil_real]
  norm_num

theorem passCount_le : c.passCount contour ≤ passLimit := by
  rw [passCount_eq]
  exact max_le (by decide) (min_le_left _ _)

theorem one_le_passCount : 1 ≤ c.passCount contour := by
  rw [passCount_eq]
  exact le_max_left _ _

theorem passLimit_le_or_ceil_le_passCount (c : Roughing ℝ) (contour : List (ContourPoint ℝ)) :
    passLimit ≤ c.passCount contour ∨
    ⌈(c.start.x - c.finishDiameter contour) / (2 * c.cut.depth)⌉₊ ≤ c.passCount contour := by
  rw [passCount_eq]
  exact (min_le_iff.1 (le_max_right _ _))

/-- A pass at the finished diameter is one of those that are counted, so the passes get down to
it. -/
theorem reaches_of_passDiameter_le {i : ℕ} (hd : 0 < c.cut.depth) (hi : i ≤ c.passCount contour)
    (h : c.passDiameter contour i ≤ c.finishDiameter contour) :
    c.start.x - passLimit * (2 * c.cut.depth) ≤ c.finishDiameter contour := by
  have hle : (i : ℝ) * (2 * c.cut.depth) ≤ passLimit * (2 * c.cut.depth) :=
    mul_le_mul_of_nonneg_right (Nat.cast_le.2 (hi.trans passCount_le)) (by linarith)
  rw [passDiameter_eq] at h
  linarith [(le_max_left _ _).trans h]

/-- If the passes get down to the finished diameter, the last one is there. -/
theorem passDiameter_passCount (hd : 0 < c.cut.depth)
    (h : c.start.x - passLimit * (2 * c.cut.depth) ≤ c.finishDiameter contour) :
    c.passDiameter contour (c.passCount contour) = c.finishDiameter contour := by
  have hstep : 0 < 2 * c.cut.depth := by linarith
  rw [passDiameter_eq]
  apply max_eq_right
  rcases passLimit_le_or_ceil_le_passCount c contour with hn | hn
  · have := mul_le_mul_of_nonneg_right (Nat.cast_le (α := ℝ).2 hn) hstep.le
    linarith
  · have := (div_le_iff₀ hstep).1 ((Nat.le_ceil _).trans (Nat.cast_le (α := ℝ).2 hn))
    linarith

/-! ### Where passes stop -/

theorem stop_eq_of_crossing {diameter z : ℝ} (h : firstCrossing? s.interpolationTolerance
    (diameter - |c.allowanceX|) contour = some z) :
    c.stop s contour diameter = z + |c.allowanceZ| := by
  cases contour with
  | nil => cases h
  | cons face rest => simp only [stop, depthAt, Scalar.abs_real, h]

theorem stop_eq_deepest (hne : contour ≠ []) {diameter : ℝ} (h : firstCrossing?
    s.interpolationTolerance (diameter - |c.allowanceX|) contour = none)
    (hd : diameter ≤ c.finishDiameter contour) :
    c.stop s contour diameter = deepest contour + |c.allowanceZ| := by
  cases contour with
  | nil => exact absurd rfl hne
  | cons face rest =>
    have hle : diameter - |c.allowanceX| ≤ smallest (face :: rest) := sub_le_iff_le_add.2 hd
    simp only [stop, depthAt, Scalar.abs_real, h, if_pos hle]

theorem stop_eq_face {face : ContourPoint ℝ} (hf : face ∈ contour.head?) {diameter : ℝ}
    (h : firstCrossing? s.interpolationTolerance (diameter - |c.allowanceX|) contour = none)
    (hd : c.finishDiameter contour < diameter) :
    c.stop s contour diameter = face.z + |c.allowanceZ| := by
  cases contour with
  | nil => cases hf
  | cons a rest =>
    obtain rfl : a = face := Option.some.inj hf
    have hlt : ¬ diameter - |c.allowanceX| ≤ smallest (a :: rest) :=
      not_le.2 (lt_sub_iff_add_lt.2 hd)
    simp only [stop, depthAt, Scalar.abs_real, h, if_neg hlt]

/-- A pass that stops at a crossing leaves the contour. -/
theorem clears_of_crossing {diameter z : ℝ} (hw : Widens contour)
    (ht : 0 ≤ s.interpolationTolerance) (h : firstCrossing? s.interpolationTolerance
      (diameter - |c.allowanceX|) contour = some z) :
    c.Clears contour diameter (c.stop s contour diameter) := by
  intro p hp hx
  have := hw.z_le_of_firstCrossing? ht h hp (sub_lt_iff_lt_add.2 hx)
  rw [stop_eq_of_crossing h]
  linarith

theorem finishDiameter_sub (c : Roughing ℝ) (contour : List (ContourPoint ℝ)) :
    c.finishDiameter contour - |c.allowanceX| = smallest contour :=
  add_sub_cancel_right _ _

/-! ### The contour after roughing -/

theorem Gouges.not_spares (hw : Widens contour) (hd : 0 < c.cut.depth)
    (h : c.Gouges s contour) : ¬ c.Spares s contour stamp := by
  intro hs
  obtain ⟨face, hface, hcut⟩ := h.cuts
  obtain ⟨a, b, hab, hax, hlt, hdeep⟩ := h.leaves
  have hlast := passDiameter_passCount hd h.reaches
  have hstop : c.stop s contour (c.finishDiameter contour) = deepest contour + |c.allowanceZ| := by
    refine stop_eq_deepest (fun hnil => ?_) ?_ le_rfl
    · simp [hnil] at hface
    · rw [finishDiameter_sub]
      exact hw.firstCrossing?_smallest_eq_none_iff.2 h.flat
  rw [← hstop, ← hlast] at hcut
  obtain ⟨q, hq, hk, hqx, hqz⟩ :=
    exists_mem_expand stamp hface one_le_passCount le_rfl hcut
  rw [hlast] at hqx hqz
  -- halfway along the segment the contour is above the pass and has not come to its stop
  have hmid : Passes contour ⟨(a.x + b.x) / 2, (a.z + b.z) / 2⟩ :=
    passes_of_mem_segments hab (onSegment_midpoint a.toPosition b.toPosition)
  have hx : q.x < (a.x + b.x) / 2 + |c.allowanceX| := by
    have := finishDiameter_sub c contour
    linarith
  have hz : (a.z + b.z) / 2 + |c.allowanceZ| ≤ q.z := hs q hq hk _ hmid hx
  have hb := deepest_le (mem_of_mem_segments hab).2
  rw [hqz, hstop] at hz
  linarith

/-- A cut into the contour is at the finished diameter and deepest, with all that it takes. -/
theorem gouges_of_not_clears (hw : Widens contour) (hd : 0 < c.cut.depth)
    (hf : 0 ≤ s.faceTolerance) (ht : 0 ≤ s.interpolationTolerance) {q : Point ℝ}
    (hq : q ∈ (c.expand s contour stamp).points) (hk : q.kind = .roughCut)
    (hc : ¬ c.Clears contour q.x q.z) : c.Gouges s contour := by
  obtain ⟨face, hface, i, hi, hqx, hqz, hlt⟩ := of_mem_expand hq hk
  rw [hqz] at hc hlt
  cases hcr : firstCrossing? s.interpolationTolerance (q.x - |c.allowanceX|) contour with
  | some z => exact absurd (clears_of_crossing hw ht hcr) hc
  | none =>
    have hW := abs_nonneg c.allowanceZ
    rcases lt_or_ge (c.finishDiameter contour) q.x with hfin | hfin
    · -- above the finished diameter the pass would stop at the face
      rw [stop_eq_face hface hcr hfin] at hlt
      linarith
    · have hqe : q.x = c.finishDiameter contour :=
        le_antisymm hfin (hqx ▸ finishDiameter_le_passDiameter i)
      have hne : contour ≠ [] := by
        rintro rfl
        cases hface
      rw [stop_eq_deepest hne hcr hfin] at hc hlt
      rw [hqe, finishDiameter_sub] at hcr
      unfold Clears at hc
      push Not at hc
      obtain ⟨p, hp, hpx, hpz⟩ := hc
      have hpx' : smallest contour < p.x := by
        rw [← finishDiameter_sub c]
        linarith
      obtain ⟨a, b, hab, hax, hbx, hpa⟩ := hw.exists_leaving hp hpx'
      exact
        { reaches := reaches_of_passDiameter_le hd hi (hqx ▸ hfin)
          flat := hw.firstCrossing?_smallest_eq_none_iff.1 hcr
          leaves := ⟨a, b, hab, hax, hax ▸ hbx, by linarith⟩
          cuts := ⟨face, hface, hlt⟩ }

/-- **Cuts into the contour.**  For a contour that widens, a cycle leaves all of the contour with
its allowance unless the pass at the finished diameter misses that the contour leaves it. -/
theorem spares_iff (hw : Widens contour) (hd : 0 < c.cut.depth) (hf : 0 ≤ s.faceTolerance)
    (ht : 0 ≤ s.interpolationTolerance) :
    c.Spares s contour stamp ↔ ¬ c.Gouges s contour := by
  constructor
  · intro hs hg
    exact hg.not_spares hw hd hs
  · intro hg q hq hk
    by_contra hc
    exact hg (gouges_of_not_clears hw hd hf ht hq hk hc)

/-- A contour through places. -/
def through (places : List (ℝ × ℝ)) : List (ContourPoint ℝ) :=
  places.map fun p => ⟨⟨p.1, p.2⟩, .feed, 0⟩

/-- A cycle on a bar of diameter 25 with an allowance on both axes. -/
noncomputable def onBar : Roughing ℝ where
  start := ⟨25, 2⟩
  cut := ⟨1, 0.5⟩
  allowanceX := -0.5
  allowanceZ := 0.25
  feed := 0.2

/-- A taper that starts behind a cylinder is left. -/
theorem spares_iff_taper :
    Widens (through [(20, 0), (20, -10), (40, -20), (40, -30)]) ∧
      onBar.Spares .standard (through [(20, 0), (20, -10), (40, -20), (40, -30)]) ⟨1, 1, none⟩ := by
  have hw : Widens (through [(20, 0), (20, -10), (40, -20), (40, -30)]) := by
    simp only [Widens, through, List.map_cons, List.map_nil, List.isChain_cons_cons]
    norm_num
  refine ⟨hw, (spares_iff hw ?_ ?_ ?_).2 fun hg => ?_⟩
  · norm_num [onBar]
  · norm_num [CycleSettings.standard]
  · norm_num [CycleSettings.standard]
  · have hflat := hg.flat ⟨⟨20, -10⟩, .feed, 0⟩ ⟨⟨40, -20⟩, .feed, 0⟩
      (by simp [through, segments]) hw.smallest_eq.symm
    norm_num [CycleSettings.standard] at hflat

/-- **A shallow taper at the face is cut through.**  The contour rises by less than the tolerance
from the face on, so the last pass runs to the deepest place. -/
theorem not_spares_shallow_taper :
    Widens (through [(20, 0), (20.0005, -20), (40, -30)]) ∧
      (0 < onBar.cut.depth ∧ 0 ≤ onBar.cut.retract) ∧
      (0 ≤ (.standard : CycleSettings ℝ).faceTolerance ∧
        0 ≤ (.standard : CycleSettings ℝ).interpolationTolerance) ∧
      ¬ onBar.Spares .standard (through [(20, 0), (20.0005, -20), (40, -30)]) ⟨1, 1, none⟩ := by
  have hw : Widens (through [(20, 0), (20.0005, -20), (40, -30)]) := by
    simp only [Widens, through, List.map_cons, List.map_nil, List.isChain_cons_cons]
    norm_num
  have hd : 0 < onBar.cut.depth := by norm_num [onBar]
  have hsmall : smallest (through [(20, 0), (20.0005, -20), (40, -30)]) = 20 := hw.smallest_eq
  have hdeep : deepest (through [(20, 0), (20.0005, -20), (40, -30)]) ≤ -30 :=
    deepest_le (a := ⟨⟨40, -30⟩, .feed, 0⟩) (by simp [through])
  refine ⟨hw, ⟨hd, by norm_num [onBar]⟩, ⟨?_, ?_⟩, Gouges.not_spares hw hd ⟨?_, ?_, ?_, ?_⟩⟩
  · norm_num [CycleSettings.standard]
  · norm_num [CycleSettings.standard]
  · rw [finishDiameter, hsmall]
    norm_num [onBar, passLimit]
  · intro a b hs ha
    rw [hsmall] at ha
    rcases List.mem_pair.1 hs with heq | heq <;> cases heq
    · norm_num [CycleSettings.standard]
    · norm_num at ha
  · refine ⟨⟨⟨20, 0⟩, .feed, 0⟩, ⟨⟨20.0005, -20⟩, .feed, 0⟩, by simp [through, segments],
      hsmall.symm, by norm_num, ?_⟩
    simp only
    linarith
  · refine ⟨⟨⟨20, 0⟩, .feed, 0⟩, rfl, ?_⟩
    norm_num [onBar, CycleSettings.standard]
    linarith

end Roughing

end Lathe
