import Lathe.Proofs.Motion.Gouging

/-!
# Where passes stop

A pass stops where the contour has its diameter, less the allowance: on the first segment whose
ends are on both sides of it and far enough apart to tell (`Contour.IsFirstTelling`).  This does
not ask for a contour that widens.  Whatever the shape of the contour, the place is on that
segment, and it is never outside of what the contour takes along the axis
(`Roughing.stopsWithin_of_ne_nil`).
-/

namespace Lathe

namespace Position

variable {a b p : Position ℝ}

theorem OnSegment.z_mem_uIcc (h : OnSegment a b p) : p.z ∈ Set.uIcc a.z b.z := by
  obtain ⟨t, h0, h1, -, hz⟩ := h
  rw [hz, Set.mem_uIcc]
  rcases le_total a.z b.z with hab | hab
  · have hlow := mul_nonneg h0 (sub_nonneg.2 hab)
    have hhigh := mul_nonneg (sub_nonneg.2 h1) (sub_nonneg.2 hab)
    exact .inl ⟨by linarith, by linarith⟩
  · have hlow := mul_nonneg h0 (sub_nonneg.2 hab)
    have hhigh := mul_nonneg (sub_nonneg.2 h1) (sub_nonneg.2 hab)
    exact .inr ⟨by linarith, by linarith⟩

/-- The part of the way at which a segment comes to a diameter between those of its ends, from
whichever side. -/
theorem onSegment_of_mem_uIcc {x : ℝ} (hx : x ∈ Set.uIcc a.x b.x) (hne : b.x - a.x ≠ 0) :
    OnSegment a b ⟨x, a.z + (x - a.x) / (b.x - a.x) * (b.z - a.z)⟩ := by
  refine ⟨(x - a.x) / (b.x - a.x), ?_, ?_, ?_, rfl⟩
  · rcases Set.mem_uIcc.1 hx with ⟨ha, hb⟩ | ⟨hb, ha⟩
    · exact div_nonneg (by linarith) (by linarith)
    · exact div_nonneg_of_nonpos (by linarith) (by linarith)
  · rcases Set.mem_uIcc.1 hx with ⟨ha, hb⟩ | ⟨hb, ha⟩
    · exact div_le_one_of_le₀ (by linarith) (by linarith)
    · exact div_le_one_of_ge (by linarith) (by linarith)
  · rw [div_mul_cancel₀ _ hne, add_sub_cancel]

end Position

namespace Contour

open Position Roughing

/-- A segment tells where the contour has a diameter: its ends are on both sides of it, and their
diameters differ by more than the tolerance. -/
structure Tells (tolerance x : ℝ) (a b : ContourPoint ℝ) : Prop where
  /-- The diameter is one of the segment. -/
  between : x ∈ Set.uIcc a.x b.x
  /-- The segment is steep enough. -/
  steep : tolerance < |b.x - a.x|

/-- A segment is the first one of a contour that tells where it has a diameter. -/
structure IsFirstTelling (tolerance x : ℝ) (contour : List (ContourPoint ℝ))
    (a b : ContourPoint ℝ) : Prop where
  /-- It does. -/
  tells : Tells tolerance x a b
  /-- None of the segments before it does. -/
  first : ∃ before after, segments contour = before ++ (a, b) :: after ∧
    ∀ s ∈ before, ¬ Tells tolerance x s.1 s.2

variable {a b : ContourPoint ℝ} {contour : List (ContourPoint ℝ)} {tolerance x z : ℝ}

theorem mul_nonpos_iff_mem_uIcc {a b x : ℝ} : (a - x) * (b - x) ≤ 0 ↔ x ∈ Set.uIcc a b := by
  rw [Set.mem_uIcc, mul_nonpos_iff]
  simp only [sub_nonneg, sub_nonpos]
  exact ⟨fun h => h.symm.imp_right And.symm, fun h => h.symm.imp_left And.symm⟩

theorem crossing?_eq_some_iff_tells : crossing? tolerance x a b = some z ↔
    Tells tolerance x a b ∧ a.z + (x - a.x) / (b.x - a.x) * (b.z - a.z) = z := by
  rw [crossing?_eq_some_iff, mul_nonpos_iff_mem_uIcc]
  exact ⟨fun ⟨hb, hs, hz⟩ => ⟨⟨hb, hs⟩, hz⟩, fun ⟨h, hz⟩ => ⟨h.between, h.steep, hz⟩⟩

theorem crossing?_eq_none_iff_not_tells :
    crossing? tolerance x a b = none ↔ ¬ Tells tolerance x a b := by
  rw [Option.eq_none_iff_forall_ne_some]
  constructor
  · intro h ht
    exact h _ (crossing?_eq_some_iff_tells.2 ⟨ht, rfl⟩)
  · intro h z hz
    exact h (crossing?_eq_some_iff_tells.1 hz).1

/-- **A crossing is on the first segment that tells.** -/
theorem firstCrossing?_eq_some_iff : firstCrossing? tolerance x contour = some z ↔
    ∃ a b, IsFirstTelling tolerance x contour a b ∧
      a.z + (x - a.x) / (b.x - a.x) * (b.z - a.z) = z := by
  rw [firstCrossing?, List.findSome?_eq_some_iff]
  constructor
  · rintro ⟨before, ⟨a, b⟩, after, hsplit, hz, hbefore⟩
    obtain ⟨htells, hz⟩ := crossing?_eq_some_iff_tells.1 hz
    exact ⟨a, b, ⟨htells, before, after, hsplit,
      fun s hs => crossing?_eq_none_iff_not_tells.1 (hbefore s hs)⟩, hz⟩
  · rintro ⟨a, b, ⟨htells, before, after, hsplit, hbefore⟩, hz⟩
    exact ⟨before, (a, b), after, hsplit, crossing?_eq_some_iff_tells.2 ⟨htells, hz⟩,
      fun s hs => crossing?_eq_none_iff_not_tells.2 (hbefore s hs)⟩

theorem IsFirstTelling.mem_segments (h : IsFirstTelling tolerance x contour a b) :
    (a, b) ∈ segments contour := by
  obtain ⟨before, after, hsplit, -⟩ := h.first
  rw [hsplit]
  exact List.mem_append_cons_self

/-- Some segment tells only if a first one does. -/
theorem exists_isFirstTelling (hs : (a, b) ∈ segments contour) (h : Tells tolerance x a b) :
    ∃ a b, IsFirstTelling tolerance x contour a b := by
  cases hz : firstCrossing? tolerance x contour with
  | none =>
    exact absurd h (crossing?_eq_none_iff_not_tells.1 (firstCrossing?_eq_none_iff.1 hz a b hs))
  | some z =>
    obtain ⟨a, b, hfirst, -⟩ := firstCrossing?_eq_some_iff.1 hz
    exact ⟨a, b, hfirst⟩

theorem Tells.onSegment (ht : 0 ≤ tolerance) (h : Tells tolerance x a b) :
    OnSegment a.toPosition b.toPosition
      ⟨x, a.z + (x - a.x) / (b.x - a.x) * (b.z - a.z)⟩ :=
  onSegment_of_mem_uIcc h.between (abs_pos.1 (ht.trans_lt h.steep))

/-! ### What a contour takes along the axis -/

theorem isLeast_deepest (hne : contour ≠ []) :
    IsLeast {z | ∃ p ∈ contour, p.z = z} (deepest contour) :=
  ⟨List.mem_map.1 (Scalar.least_mem (by simpa using hne)),
    fun _ ⟨_, hp, hz⟩ => hz ▸ deepest_le hp⟩

theorem exists_isGreatest_z (hne : contour ≠ []) :
    ∃ z, IsGreatest {z | ∃ p ∈ contour, p.z = z} z := by
  have hmap : contour.map (fun p => p.z) ≠ [] := by simpa using hne
  obtain ⟨z, hz⟩ := Option.ne_none_iff_exists'.1 (mt List.max?_eq_none_iff.1 hmap)
  obtain ⟨hmem, hmax⟩ := List.max?_eq_some_iff.1 hz
  exact ⟨z, List.mem_map.1 hmem, fun _ ⟨p, hp, hpz⟩ => hpz ▸ hmax _ (List.mem_map_of_mem hp)⟩

end Contour

namespace Roughing

open Contour Position

variable {c : Roughing ℝ} {s : CycleSettings ℝ} {contour : List (ContourPoint ℝ)}

/-- Where a pass at a diameter stops along a contour. -/
structure StopsWithin (c : Roughing ℝ) (s : CycleSettings ℝ) (contour : List (ContourPoint ℝ))
    (diameter : ℝ) : Prop where
  /-- Between the deepest place of the contour and its highest, each with the allowance. -/
  within : ∃ low high, IsLeast {z | ∃ p ∈ contour, p.z = z} low ∧
    IsGreatest {z | ∃ p ∈ contour, p.z = z} high ∧
    low + |c.allowanceZ| ≤ c.stop s contour diameter ∧
    c.stop s contour diameter ≤ high + |c.allowanceZ|
  /-- If some segment tells where the contour has the diameter less the allowance, the pass stops
  there on the first one that does. -/
  onContour : (∃ a b, (a, b) ∈ segments contour ∧
      Tells s.interpolationTolerance (diameter - |c.allowanceX|) a b) →
    ∃ a b, IsFirstTelling s.interpolationTolerance (diameter - |c.allowanceX|) contour a b ∧
      OnSegment a.toPosition b.toPosition
        ⟨diameter - |c.allowanceX|, c.stop s contour diameter - |c.allowanceZ|⟩ ∧
      Passes contour ⟨diameter - |c.allowanceX|, c.stop s contour diameter - |c.allowanceZ|⟩

/-- A pass stops on the first segment that tells. -/
theorem onSegment_of_isFirstTelling {diameter : ℝ} {a b : ContourPoint ℝ}
    (ht : 0 ≤ s.interpolationTolerance)
    (h : IsFirstTelling s.interpolationTolerance (diameter - |c.allowanceX|) contour a b) :
    OnSegment a.toPosition b.toPosition
      ⟨diameter - |c.allowanceX|, c.stop s contour diameter - |c.allowanceZ|⟩ := by
  have hz := firstCrossing?_eq_some_iff.2 ⟨a, b, h, rfl⟩
  rw [stop_eq_of_crossing hz, add_sub_cancel_right]
  exact h.tells.onSegment ht

/-- Where no segment tells, a pass stops at the deepest place or at the face. -/
theorem exists_mem_of_firstCrossing?_eq_none {diameter : ℝ} (hne : contour ≠ [])
    (h : firstCrossing? s.interpolationTolerance (diameter - |c.allowanceX|) contour = none) :
    ∃ p ∈ contour, c.stop s contour diameter = p.z + |c.allowanceZ| := by
  rcases le_or_gt diameter (c.finishDiameter contour) with hd | hd
  · obtain ⟨p, hp, hz⟩ := (isLeast_deepest hne).1
    exact ⟨p, hp, by rw [stop_eq_deepest hne h hd, hz]⟩
  · obtain ⟨face, hface⟩ := Option.ne_none_iff_exists'.1 (mt List.head?_eq_none_iff.1 hne)
    exact ⟨face, List.mem_of_mem_head? hface, stop_eq_face hface h hd⟩

/-- **A pass stops within the contour.**  For a contour of any shape that has a point, and any
diameter, a pass ends between the deepest and the highest place of the contour, each with the
allowance.  If some segment tells where the contour has the diameter less the allowance, it ends
exactly there, on the first segment that does. -/
theorem stopsWithin_of_ne_nil (hne : contour ≠ []) (ht : 0 ≤ s.interpolationTolerance)
    (diameter : ℝ) : c.StopsWithin s contour diameter := by
  obtain ⟨high, hhigh⟩ := exists_isGreatest_z hne
  have hlow := isLeast_deepest hne
  refine ⟨⟨deepest contour, high, hlow, hhigh, ?_⟩, ?_⟩
  · suffices h : ∃ z, c.stop s contour diameter = z + |c.allowanceZ| ∧
        deepest contour ≤ z ∧ z ≤ high by
      obtain ⟨z, hz, hle, hge⟩ := h
      rw [hz]
      exact ⟨by linarith, by linarith⟩
    cases hz : firstCrossing? s.interpolationTolerance (diameter - |c.allowanceX|) contour with
    | none =>
      obtain ⟨p, hp, hstop⟩ := exists_mem_of_firstCrossing?_eq_none hne hz
      exact ⟨p.z, hstop, hlow.2 ⟨p, hp, rfl⟩, hhigh.2 ⟨p, hp, rfl⟩⟩
    | some z =>
      obtain ⟨a, b, hfirst, hz'⟩ := firstCrossing?_eq_some_iff.1 hz
      obtain ⟨ha, hb⟩ := mem_of_mem_segments hfirst.mem_segments
      have hmem := (hfirst.tells.onSegment ht).z_mem_uIcc
      rw [hz'] at hmem
      refine ⟨z, stop_eq_of_crossing hz, ?_, ?_⟩
      · exact (le_min (hlow.2 ⟨a, ha, rfl⟩) (hlow.2 ⟨b, hb, rfl⟩)).trans hmem.1
      · exact hmem.2.trans (max_le (hhigh.2 ⟨a, ha, rfl⟩) (hhigh.2 ⟨b, hb, rfl⟩))
  · rintro ⟨a, b, hs, htells⟩
    obtain ⟨a, b, hfirst⟩ := exists_isFirstTelling hs htells
    have hseg := onSegment_of_isFirstTelling ht hfirst
    exact ⟨a, b, hfirst, hseg, passes_of_mem_segments hfirst.mem_segments hseg⟩

/-- A contour that widens from its face and narrows behind.  The segment at the face is too flat to
tell, so a pass at its diameter runs on to where the contour narrows. -/
theorem stopsWithin_of_ne_nil_waist :
    through [(22, 0), (22.0005, -4), (26, -6), (20, -14)] ≠ [] ∧
      0 ≤ (.standard : CycleSettings ℝ).interpolationTolerance ∧
      Tells (.standard : CycleSettings ℝ).interpolationTolerance (22.5 - |onBar.allowanceX|)
        ⟨⟨26, -6⟩, .feed, 0⟩ ⟨⟨20, -14⟩, .feed, 0⟩ ∧
      onBar.StopsWithin .standard (through [(22, 0), (22.0005, -4), (26, -6), (20, -14)]) 22.5 := by
  have hne : through [(22, 0), (22.0005, -4), (26, -6), (20, -14)] ≠ [] := by simp [through]
  have ht : 0 ≤ (.standard : CycleSettings ℝ).interpolationTolerance := by
    norm_num [CycleSettings.standard]
  refine ⟨hne, ht, ⟨Set.mem_uIcc.2 (.inr ?_), ?_⟩, stopsWithin_of_ne_nil hne ht _⟩
  · norm_num [onBar, abs_of_neg]
  · norm_num [CycleSettings.standard, abs_of_neg]

end Roughing

end Lathe
