import Lathe.Motion.Roughing
import Lathe.Proofs.Scalar.Real

/-!
# Contours as curves

The points of a contour stand for a curve: the segments from each point to the next one, with all
that lies between their ends.  A contour that *widens* never loses diameter and never comes back
towards the face, which is what a roughing cycle can turn from the outside.

`Contour.Widens.z_le_of_firstCrossing?` says that a crossing found by `Roughing.firstCrossing?`
bounds all of the curve above its diameter.  `Contour.Widens.firstCrossing?_smallest_eq_none_iff`
says when none is found at the smallest diameter: if all segments that start there are too flat.
-/

namespace Lathe

namespace Position

/-- A place lies on the segment between two others: it divides it in some ratio. -/
def OnSegment (a b p : Position ℝ) : Prop :=
  ∃ t : ℝ, 0 ≤ t ∧ t ≤ 1 ∧ p.x = a.x + t * (b.x - a.x) ∧ p.z = a.z + t * (b.z - a.z)

variable {a b p : Position ℝ}

theorem OnSegment.between (h : OnSegment a b p) (hx : a.x ≤ b.x) (hz : b.z ≤ a.z) :
    (a.x ≤ p.x ∧ p.x ≤ b.x) ∧ b.z ≤ p.z ∧ p.z ≤ a.z := by
  obtain ⟨t, h0, h1, hpx, hpz⟩ := h
  have hdx := mul_nonneg h0 (sub_nonneg.2 hx)
  have hdz := mul_nonneg h0 (sub_nonneg.2 hz)
  have hdx' := mul_nonneg (sub_nonneg.2 h1) (sub_nonneg.2 hx)
  have hdz' := mul_nonneg (sub_nonneg.2 h1) (sub_nonneg.2 hz)
  refine ⟨⟨?_, ?_⟩, ?_, ?_⟩ <;> linarith

/-- On a segment that falls with the diameter, what is above a diameter is below its place. -/
theorem OnSegment.z_le_of_lt_x {x : ℝ} (h : OnSegment a b p) (hx : a.x < b.x) (hz : b.z ≤ a.z)
    (hlt : x < p.x) : p.z ≤ a.z + (x - a.x) / (b.x - a.x) * (b.z - a.z) := by
  obtain ⟨t, -, -, hpx, hpz⟩ := h
  have ht : (x - a.x) / (b.x - a.x) ≤ t := by
    rw [div_le_iff₀ (sub_pos.2 hx)]
    linarith
  have := mul_le_mul_of_nonpos_right ht (sub_nonpos.2 hz)
  linarith

theorem onSegment_left (a b : Position ℝ) : OnSegment a b a :=
  ⟨0, le_rfl, zero_le_one, by simp, by simp⟩

theorem onSegment_midpoint (a b : Position ℝ) :
    OnSegment a b ⟨(a.x + b.x) / 2, (a.z + b.z) / 2⟩ :=
  ⟨1 / 2, by norm_num, by norm_num, by change (a.x + b.x) / 2 = _; ring,
    by change (a.z + b.z) / 2 = _; ring⟩

end Position

namespace Contour

open Position Roughing

/-- A place lies on a contour: on one of its segments, or it is its only point. -/
def Passes : List (ContourPoint ℝ) → Position ℝ → Prop
  | [], _ => False
  | [a], p => p = a.toPosition
  | a :: b :: rest, p => OnSegment a.toPosition b.toPosition p ∨ Passes (b :: rest) p

/-- Along the contour the diameter never falls and the place along the axis never rises. -/
def Widens (contour : List (ContourPoint ℝ)) : Prop :=
  contour.IsChain fun a b => a.x ≤ b.x ∧ b.z ≤ a.z

variable {a b c : ContourPoint ℝ} {rest contour : List (ContourPoint ℝ)} {p : Position ℝ}
  {tolerance target z : ℝ}

theorem passes_of_mem_segments (hs : (a, b) ∈ segments contour)
    (hp : OnSegment a.toPosition b.toPosition p) : Passes contour p := by
  induction contour with
  | nil => cases hs
  | cons c rest ih =>
    cases rest with
    | nil => cases hs
    | cons d rest =>
      rcases List.mem_cons.1 hs with heq | hs
      · cases heq
        exact .inl hp
      · exact .inr (ih hs)

theorem mem_of_mem_segments (hs : (a, b) ∈ segments contour) : a ∈ contour ∧ b ∈ contour :=
  ⟨(List.of_mem_zip hs).1, List.mem_of_mem_tail (List.of_mem_zip hs).2⟩

/-! ### Contours that widen -/

theorem widens_cons_cons :
    Widens (a :: b :: rest) ↔ (a.x ≤ b.x ∧ b.z ≤ a.z) ∧ Widens (b :: rest) :=
  List.isChain_cons_cons

theorem Widens.of_mem_segments (h : Widens contour) (hs : (a, b) ∈ segments contour) :
    a.x ≤ b.x ∧ b.z ≤ a.z := by
  induction contour with
  | nil => cases hs
  | cons c rest ih =>
    cases rest with
    | nil => cases hs
    | cons d rest =>
      rcases List.mem_cons.1 hs with heq | hs
      · cases heq
        exact (widens_cons_cons.1 h).1
      · exact ih (widens_cons_cons.1 h).2 hs

theorem Widens.head_x_le (h : Widens (a :: rest)) (hb : b ∈ a :: rest) : a.x ≤ b.x := by
  induction rest generalizing a with
  | nil => rw [List.mem_singleton.1 hb]
  | cons c rest ih =>
    obtain ⟨⟨hac, -⟩, hc⟩ := widens_cons_cons.1 h
    rcases List.mem_cons.1 hb with rfl | hb
    · exact le_rfl
    · exact hac.trans (ih hc hb)

theorem Widens.of_passes (h : Widens (a :: rest)) (hp : Passes (a :: rest) p) :
    a.x ≤ p.x ∧ p.z ≤ a.z := by
  induction rest generalizing a with
  | nil =>
    obtain rfl : p = a.toPosition := hp
    exact ⟨le_rfl, le_rfl⟩
  | cons b rest ih =>
    obtain ⟨⟨hx, hz⟩, hb⟩ := widens_cons_cons.1 h
    rcases hp with hp | hp
    · obtain ⟨⟨hpx, -⟩, -, hpz⟩ := hp.between hx hz
      exact ⟨hpx, hpz⟩
    · obtain ⟨hpx, hpz⟩ := ih hb hp
      exact ⟨hx.trans hpx, hpz.trans hz⟩

theorem smallest_le (h : a ∈ contour) : smallest contour ≤ a.x :=
  Scalar.least_le_of_mem (List.mem_map_of_mem h)

theorem deepest_le (h : a ∈ contour) : deepest contour ≤ a.z :=
  Scalar.least_le_of_mem (List.mem_map_of_mem h)

theorem Widens.smallest_eq (h : Widens (a :: rest)) : smallest (a :: rest) = a.x := by
  apply le_antisymm (smallest_le List.mem_cons_self)
  obtain ⟨b, hb, hbx⟩ : ∃ b ∈ a :: rest, b.x = smallest (a :: rest) :=
    List.mem_map.1 (Scalar.least_mem (List.cons_ne_nil _ _))
  exact (h.head_x_le hb).trans hbx.le

theorem Widens.exists_leaving_head (h : Widens (a :: rest)) (hp : Passes (a :: rest) p)
    (hx : a.x < p.x) :
    ∃ b c, (b, c) ∈ segments (a :: rest) ∧ b.x = a.x ∧ a.x < c.x ∧ p.z ≤ b.z := by
  induction rest generalizing a with
  | nil =>
    obtain rfl : p = a.toPosition := hp
    exact absurd hx (lt_irrefl _)
  | cons b rest ih =>
    obtain ⟨⟨hab, -⟩, hb⟩ := widens_cons_cons.1 h
    rcases hab.lt_or_eq with hlt | heq
    · exact ⟨a, b, List.mem_cons_self, rfl, hlt, (h.of_passes hp).2⟩
    · -- the first segment keeps the diameter, so the place is on a later one
      have hp' : Passes (b :: rest) p := by
        refine hp.resolve_left fun hseg => ?_
        have := (hseg.between hab (widens_cons_cons.1 h).1.2).1.2
        linarith
      obtain ⟨c, d, hmem, hcx, hdx, hpz⟩ := ih hb hp' (heq ▸ hx)
      exact ⟨c, d, List.mem_cons_of_mem _ hmem, hcx.trans heq.symm, heq ▸ hdx, hpz⟩

/-- Where a contour that widens is above its smallest diameter, it has left that diameter over an
earlier segment. -/
theorem Widens.exists_leaving (h : Widens contour) (hp : Passes contour p)
    (hx : smallest contour < p.x) :
    ∃ a b, (a, b) ∈ segments contour ∧ a.x = smallest contour ∧ smallest contour < b.x ∧
      p.z ≤ a.z := by
  cases contour with
  | nil => exact hp.elim
  | cons a rest =>
    rw [h.smallest_eq] at hx ⊢
    exact h.exists_leaving_head hp hx

/-! ### Crossings -/

theorem crossing?_eq_some_iff :
    crossing? tolerance target a b = some z ↔
      (a.x - target) * (b.x - target) ≤ 0 ∧ tolerance < |b.x - a.x| ∧
        a.z + (target - a.x) / (b.x - a.x) * (b.z - a.z) = z := by
  unfold crossing?
  split_ifs with h
  · rw [Scalar.zero_real] at h
    simp only [Option.some.injEq]
    exact ⟨fun hz => ⟨h.1, h.2, hz⟩, fun hz => hz.2.2⟩
  · rw [Scalar.zero_real] at h
    exact ⟨nofun, fun hz => (h ⟨hz.1, hz.2.1⟩).elim⟩

theorem crossing?_eq_none_iff :
    crossing? tolerance target a b = none ↔
      ((a.x - target) * (b.x - target) ≤ 0 → |b.x - a.x| ≤ tolerance) := by
  unfold crossing?
  rw [Scalar.zero_real]
  split_ifs with h
  · exact ⟨nofun, fun hf => absurd h.2 (hf h.1).not_gt⟩
  · exact ⟨fun _ hb => not_lt.1 fun ht => h ⟨hb, ht⟩, fun _ => rfl⟩

theorem firstCrossing?_eq_none_iff :
    firstCrossing? tolerance target contour = none ↔
      ∀ a b, (a, b) ∈ segments contour → crossing? tolerance target a b = none := by
  rw [firstCrossing?, List.findSome?_eq_none_iff]
  exact ⟨fun h a b hs => h (a, b) hs, fun h s hs => h s.1 s.2 hs⟩

theorem bracketed_of_mul_nonpos {x y t : ℝ} (hxy : x ≤ y) (h : (x - t) * (y - t) ≤ 0) :
    x ≤ t ∧ t ≤ y := by
  rcases mul_nonpos_iff.1 h with ⟨hx, hy⟩ | ⟨hx, hy⟩
  · constructor <;> linarith
  · exact ⟨sub_nonpos.1 hx, sub_nonneg.1 hy⟩

theorem Widens.z_le_of_mem_segments (h : Widens contour) (hs : (a, b) ∈ segments contour)
    (hlt : a.x < b.x) (ha : a.x ≤ target) (hb : target ≤ b.x) (hp : Passes contour p)
    (hx : target < p.x) : p.z ≤ a.z + (target - a.x) / (b.x - a.x) * (b.z - a.z) := by
  induction contour with
  | nil => cases hs
  | cons c rest ih =>
    cases rest with
    | nil => cases hs
    | cons d rest =>
      obtain ⟨⟨hcd, hdc⟩, hrest⟩ := widens_cons_cons.1 h
      rcases List.mem_cons.1 hs with heq | hs
      · cases heq
        rcases hp with hp | hp
        · exact hp.z_le_of_lt_x hlt hdc hx
        · -- past the segment the contour is not above its far end
          have hz := (hrest.of_passes hp).2
          have hr : (target - a.x) / (b.x - a.x) ≤ 1 := by
            rw [div_le_one (sub_pos.2 hlt)]
            linarith
          have := mul_le_mul_of_nonpos_right hr (sub_nonpos.2 hdc)
          linarith
      · refine ih hrest hs (hp.resolve_left fun hseg => ?_)
        -- before the segment the contour has not reached the diameter
        have hpd := (hseg.between hcd hdc).1.2
        have hda := hrest.head_x_le (mem_of_mem_segments hs).1
        linarith

/-- **A crossing bounds the contour.**  Where a contour that widens is above a diameter that one
of its segments crosses, it is not above the place of the crossing. -/
theorem Widens.z_le_of_firstCrossing? (h : Widens contour) (ht : 0 ≤ tolerance)
    (hz : firstCrossing? tolerance target contour = some z) (hp : Passes contour p)
    (hx : target < p.x) : p.z ≤ z := by
  obtain ⟨⟨a, b⟩, hs, hc⟩ := List.exists_of_findSome?_eq_some hz
  obtain ⟨hbr, hsteep, rfl⟩ := crossing?_eq_some_iff.1 hc
  obtain ⟨hab, -⟩ := h.of_mem_segments hs
  rw [abs_of_nonneg (sub_nonneg.2 hab)] at hsteep
  obtain ⟨ha, hb⟩ := bracketed_of_mul_nonpos hab hbr
  exact h.z_le_of_mem_segments hs (by linarith) ha hb hp hx

/-- **The smallest diameter.**  No segment of a contour that widens crosses its smallest diameter
exactly if those that start there are too flat to tell. -/
theorem Widens.firstCrossing?_smallest_eq_none_iff (h : Widens contour) :
    firstCrossing? tolerance (smallest contour) contour = none ↔
      ∀ a b, (a, b) ∈ segments contour → a.x = smallest contour → b.x - a.x ≤ tolerance := by
  rw [firstCrossing?_eq_none_iff]
  refine forall₂_congr fun a b => forall_congr' fun hs => ?_
  obtain ⟨hab, -⟩ := h.of_mem_segments hs
  have ha := smallest_le (mem_of_mem_segments hs).1
  rw [crossing?_eq_none_iff, abs_of_nonneg (sub_nonneg.2 hab)]
  constructor
  · intro hflat hax
    apply hflat
    rw [hax, sub_self, zero_mul]
  · intro hflat hbr
    exact hflat (le_antisymm (bracketed_of_mul_nonpos hab hbr).1 ha)

end Contour

end Lathe
