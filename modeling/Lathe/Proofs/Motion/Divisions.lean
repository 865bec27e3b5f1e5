import Lathe.Proofs.Motion.ArcCircle
import Lathe.Proofs.Motion.Divisors
import Lathe.Proofs.Motion.Skipping
import Lathe.Proofs.Motion.StopPlaces
import Lathe.Proofs.Program.Whole
import Lathe.Settings.Tuning

/-!
# Division by zero

Of what interpretation divides by (`Program.divisions`), nothing but the spans of contour segments
can be zero for a tuning without fault (`Program.dividesByZero_iff`).  Chords cannot, whatever the
least chord of the settings is, since a move that leads nowhere is left out before its arc is
solved for; spans can, since nothing checks the tolerance of interpolation, and with one below zero
a segment along the axis is steep enough.  The depth of a pass may be zero too, which
`Roughing.passesBetween` takes care of.
-/

namespace Lathe

/-! ### Divisors that are not zero -/

/-- What a division divides by is not zero. -/
def Division.Sound (d : Division ℝ) : Prop := d.divisor ≠ 0

theorem Position.ne_of_isNear {a b : Position ℝ} (h : ¬a.isNear b = true) : a ≠ b := by
  rintro rfl
  refine h (Bool.and_eq_true_iff.2 ⟨?_, ?_⟩) <;> simp [Position.tolerance] <;> norm_num

namespace Arc

variable {s : ArcSettings ℝ} {a b : Position ℝ} {radius : ℝ} {rotation : Rotation}

theorem chord_eq_distance (a b : Position ℝ) : chord a b = a.distance b := by
  rw [← sqrt_chord_eq, ← Scalar.two_real]
  rfl

/-- **No arc between two different places is solved for by a division by zero.** -/
theorem sound_of_mem_divisions (hs : 0 < s.maxAngleStep) (hne : a ≠ b) {d : Division ℝ}
    (hd : d ∈ divisions s a b radius rotation) : d.Sound := by
  unfold divisions at hd
  rcases List.mem_cons.1 hd with rfl | hd
  · rw [Division.Sound, Scalar.two_real]
    exact two_ne_zero
  · cases hg : solve? s a b radius rotation with
    | none => rw [hg] at hd; cases hd
    | some g =>
      rw [hg] at hd
      rcases List.mem_cons.1 hd with rfl | hd
      · rw [Division.Sound, chord_eq_distance]
        exact (Position.distance_pos hne).ne'
      rcases List.mem_cons.1 hd with rfl | hd
      · exact hs.ne'
      · obtain ⟨i, -, rfl⟩ := List.mem_map.1 hd
        exact Nat.cast_ne_zero.2 (Nat.one_le_iff_ne_zero.1 (one_le_stepCount s g.sweep))

end Arc

namespace Contour

variable {s : ArcSettings ℝ} {p : Program ℝ} {first last : ℕ} {d : Division ℝ}

theorem sound_of_mem_pathDivisions (hs : 0 < s.maxAngleStep) {motion : Motion} {a b : Position ℝ}
    {radius : ℝ} (hne : a ≠ b) (hd : d ∈ pathDivisions s motion a b radius) : d.Sound := by
  unfold pathDivisions at hd
  cases hrotation : motion.rotation? with
  | none => rw [hrotation] at hd; cases hd
  | some rotation =>
    rw [hrotation] at hd
    exact Arc.sound_of_mem_divisions hs hne hd

theorem sound_of_mem_divisionsOfLines (hs : 0 < s.maxAngleStep) {t : Tracing ℝ}
    {lines : List (Line ℝ × ℕ)} (hd : d ∈ divisionsOfLines s t lines) : d.Sound := by
  induction lines generalizing t with
  | nil => cases hd
  | cons li rest ih =>
    rcases List.mem_append.1 hd with hd | hd
    · unfold Tracing.divisions at hd
      split_ifs at hd with hmoves
      · simp only [Bool.and_eq_true, Bool.not_eq_true'] at hmoves
        exact sound_of_mem_pathDivisions hs
          (Position.ne_of_isNear (Bool.eq_false_iff.1 hmoves.2)) hd
      · cases hd
    · exact ih hd

/-- **No contour is found by a division by zero.** -/
theorem sound_of_mem_divisions (hs : 0 < s.maxAngleStep) (hd : d ∈ divisions s p first last) :
    d.Sound := by
  unfold divisions at hd
  split at hd
  · exact sound_of_mem_divisionsOfLines hs hd
  · cases hd

end Contour

namespace Subdivision

variable {limit : ℝ} {path : List (Point ℝ)} {d : Division ℝ}

/-- **No move is cut by a division by zero.** -/
theorem sound_of_mem_divisions (hd : d ∈ divisions limit path) : d.Sound := by
  unfold divisions at hd
  split_ifs at hd with hlimit
  · obtain ⟨⟨a, b⟩, -, hd⟩ := List.mem_flatMap.1 hd
    dsimp only [cutDivisions] at hd
    have hpos : 0 < limit := Scalar.isPositive_real.1 hlimit
    split_ifs at hd with hlong
    · rcases List.mem_cons.1 hd with rfl | hd
      · exact hpos.ne'
      · obtain ⟨i, hi, rfl⟩ := List.mem_map.1 hd
        -- no part is taken of a move that is not cut
        obtain ⟨hfirst, hlast⟩ := List.mem_range'_1.1 hi
        exact Nat.cast_ne_zero.2 (by omega)
    · cases hd
  · cases hd

end Subdivision

/-! ### Spans -/

namespace Roughing

open Contour

variable {tolerance x : ℝ} {contour : List (ContourPoint ℝ)} {c : Roughing ℝ}
  {s : CycleSettings ℝ} {d : Division ℝ}

theorem tells_eq_true_iff {ab : ContourPoint ℝ × ContourPoint ℝ} :
    tells tolerance x ab = true ↔ Tells tolerance x ab.1 ab.2 := by
  rw [tells, decide_eq_true_eq, Scalar.zero_real, mul_nonpos_iff_mem_uIcc]
  exact ⟨fun ⟨hb, hs⟩ => ⟨hb, hs⟩, fun h => ⟨h.between, h.steep⟩⟩

theorem find?_tells_eq_some_iff {ab : ContourPoint ℝ × ContourPoint ℝ} :
    (segments contour).find? (tells tolerance x) = some ab ↔
      IsFirstTelling tolerance x contour ab.1 ab.2 := by
  rw [List.find?_eq_some_iff_append, tells_eq_true_iff]
  simp only [Bool.not_eq_true', Bool.eq_false_iff, ne_eq, tells_eq_true_iff]
  exact ⟨fun ⟨h, hfirst⟩ => ⟨h, hfirst⟩, fun h => ⟨h.tells, h.first⟩⟩

theorem mem_spanDivisions_iff : d ∈ spanDivisions tolerance x contour ↔
    ∃ a b, IsFirstTelling tolerance x contour a b ∧ d = ⟨.span, b.x - a.x⟩ := by
  rw [spanDivisions, List.mem_map]
  simp only [Option.mem_toList, find?_tells_eq_some_iff]
  exact ⟨fun ⟨ab, h, hd⟩ => ⟨ab.1, ab.2, h, hd.symm⟩, fun ⟨a, b, h, hd⟩ => ⟨(a, b), h, hd.symm⟩⟩

/-- Where a pass stops, a contour runs along the axis: the first segment that tells where the
contour has the diameter has it all along. -/
def IsFlatAt (c : Roughing ℝ) (s : CycleSettings ℝ) (contour : List (ContourPoint ℝ)) (i : ℕ) :
    Prop :=
  ∃ a b, IsFirstTelling s.interpolationTolerance (c.passDiameter contour i - |c.allowanceX|)
    contour a b ∧ a.x = b.x

theorem exists_zero_divisor_iff :
    (∃ d ∈ c.divisions s contour, d.site ≠ .passDepth ∧ d.divisor = 0) ↔
      ∃ i, 1 ≤ i ∧ i ≤ c.passCount contour ∧ c.IsFlatAt s contour i := by
  constructor
  · rintro ⟨d, hd, hsite, hzero⟩
    rcases List.mem_cons.1 hd with rfl | hd
    · exact absurd rfl hsite
    · obtain ⟨i, hi, hd⟩ := List.mem_flatMap.1 hd
      obtain ⟨a, b, htells, rfl⟩ := mem_spanDivisions_iff.1 hd
      obtain ⟨h1, hn⟩ := List.mem_range'_1.1 hi
      exact ⟨i, h1, by omega, a, b, htells, (sub_eq_zero.1 hzero).symm⟩
  · rintro ⟨i, h1, hn, a, b, htells, heq⟩
    refine ⟨⟨.span, b.x - a.x⟩, List.mem_cons_of_mem _ (List.mem_flatMap.2 ⟨i, ?_, ?_⟩), nofun,
      sub_eq_zero.2 heq.symm⟩
    · exact List.mem_range'_1.2 ⟨h1, by omega⟩
    · exact mem_spanDivisions_iff.2 ⟨a, b, htells, rfl⟩

/-- This takes a tolerance below zero. -/
theorem IsFlatAt.tolerance_neg {i : ℕ} (h : c.IsFlatAt s contour i) :
    s.interpolationTolerance < 0 := by
  obtain ⟨a, b, htells, heq⟩ := h
  have hsteep := htells.tells.steep
  rwa [heq, sub_self, abs_zero] at hsteep

end Roughing

/-! ### Programs -/

namespace Walk

/-- A visit expands a roughing cycle on a contour. -/
structure Visit.Roughs {α : Type} [Scalar α] (t : Tuning α) (p : Program α) (v : Visit α)
    (contour : List (ContourPoint α)) : Prop where
  /-- The tool has a place. -/
  started : v.before.started = true
  /-- The line calls a roughing cycle. -/
  calls : v.line.callsRoughing = true
  /-- Its labels lead to the contour. -/
  contour_eq : contour? t p v.line = some contour
  /-- The contour has two points at least. -/
  length : 2 ≤ contour.length

variable {t : Tuning ℝ} {p : Program ℝ} {s : State ℝ} {l : Line ℝ} {d : Division ℝ}

theorem sound_of_mem_contourDivisions (ht : 0 < t.arc.maxAngleStep)
    (hd : d ∈ contourDivisions t p l) : d.Sound := by
  unfold contourDivisions at hd
  split at hd
  · exact Contour.sound_of_mem_divisions ht hd
  · cases hd

theorem sound_of_mem_moveDivisions (ht : 0 < t.arc.maxAngleStep) {m : Modal ℝ}
    (hd : d ∈ moveDivisions t m l) : d.Sound := by
  unfold moveDivisions at hd
  split_ifs at hd with hnear
  · cases hd
  · exact Contour.sound_of_mem_pathDivisions ht (Position.ne_of_isNear hnear) hd

theorem mem_roughDivisions_iff {m : Modal ℝ} {contour : List (ContourPoint ℝ)} :
    d ∈ roughDivisions t m l contour ↔
      2 ≤ contour.length ∧ d ∈ (roughing t m l).divisions t.cycle contour := by
  rcases contour with _ | ⟨a, _ | ⟨b, rest⟩⟩ <;> simp [roughDivisions]

/-- **Only the roughing cycle of a line can divide by zero.** -/
theorem exists_zero_divisor_iff (ht : 0 < t.arc.maxAngleStep) {v : Visit ℝ} :
    (∃ d ∈ divisionsOn t p v.before v.line, d.site ≠ .passDepth ∧ d.divisor = 0) ↔
      ∃ contour, v.Roughs t p contour ∧ ∃ i, 1 ≤ i ∧
        i ≤ (v.roughing t).passCount contour ∧ (v.roughing t).IsFlatAt t.cycle contour i := by
  constructor
  · rintro ⟨d, hd, hsite, hzero⟩
    unfold divisionsOn at hd
    split_ifs at hd with hs
    · split at hd
      · rename_i haction
        rcases List.mem_append.1 hd with hd | hd
        · exact absurd hzero (sound_of_mem_contourDivisions ht hd)
        · cases hcontour : contour? t p v.line with
          | none => rw [hcontour] at hd; cases hd
          | some contour =>
            rw [hcontour] at hd
            obtain ⟨hlength, hd⟩ := mem_roughDivisions_iff.1 hd
            exact ⟨contour, ⟨hs, Line.callsRoughing_of_action haction, hcontour, hlength⟩,
              Roughing.exists_zero_divisor_iff.1 ⟨d, hd, hsite, hzero⟩⟩
      · exact absurd hzero (sound_of_mem_contourDivisions ht hd)
      · exact absurd hzero (sound_of_mem_moveDivisions ht hd)
      · cases hd
    · cases hd
  · rintro ⟨contour, hv, hflat⟩
    obtain ⟨d, hd, hsite, hzero⟩ := Roughing.exists_zero_divisor_iff.2 hflat
    refine ⟨d, ?_, hsite, hzero⟩
    rw [divisionsOn, if_pos hv.started, Line.action_of_callsRoughing hv.calls, hv.contour_eq]
    exact List.mem_append_right _ (mem_roughDivisions_iff.2 ⟨hv.length, hd⟩)

end Walk

/-- A tuning without fault. -/
theorem Tuning.fault?_eq_none_iff {t : Tuning ℝ} : t.fault? = none ↔
    0 < t.maxStep ∧ t.arc.minPoints ≠ 0 ∧ 0 < t.arc.maxAngleStep ∧ 0 < t.cycle.depth ∧
      0 ≤ t.cycle.retract ∧ 0 ≤ t.cycle.roughFeed := by
  rw [← not_lt (a := t.cycle.retract), ← not_lt (a := t.cycle.roughFeed), ← not_or]
  unfold fault?
  simp only [Bool.not_eq_true', Bool.eq_false_iff, ne_eq, Scalar.isPositive_real, Scalar.zero_real]
  split_ifs <;> simp_all

/-- A division by zero is made somewhere, other than by the depth of a pass. -/
def Program.DividesByZero (t : Tuning ℝ) (p : Program ℝ) : Prop :=
  ∃ d ∈ p.divisions t, d.site ≠ .passDepth ∧ d.divisor = 0

theorem Program.dividesByZero_of_isFlatAt {t : Tuning ℝ} {p : Program ℝ} (h : t.fault? = none)
    {v : Walk.Visit ℝ} (hv : v ∈ Walk.visits t p) {contour : List (ContourPoint ℝ)}
    (hroughs : v.Roughs t p contour) {i : ℕ} (h1 : 1 ≤ i)
    (hi : i ≤ (v.roughing t).passCount contour)
    (hflat : (v.roughing t).IsFlatAt t.cycle contour i) : p.DividesByZero t := by
  have ht := (Tuning.fault?_eq_none_iff.1 h).2.2.1
  obtain ⟨d, hd, hsite, hzero⟩ :=
    (Walk.exists_zero_divisor_iff ht).2 ⟨contour, hroughs, i, h1, hi, hflat⟩
  exact ⟨d, List.mem_append_left _ (List.mem_flatMap.2 ⟨v, hv, hd⟩), hsite, hzero⟩

/-- Where no division is by zero, it does not matter what a division by zero gives. -/
theorem Program.trace_withDiv_of_not_dividesByZero {t : Tuning ℝ} {p : Program ℝ}
    (h : ¬p.DividesByZero t)
    (hdepth : ∀ x ∈ p.divisions t, x.site = .passDepth → x.divisor ≠ 0)
    {d : ℝ → ℝ → ℝ} (hd : ∀ a b, b ≠ 0 → d a b = a / b) :
    @trace ℝ (.withDiv d) t p = p.trace t := by
  refine trace_withDiv fun x hx a => hd a x.divisor ?_
  by_cases hsite : x.site = .passDepth
  · exact hdepth x hx hsite
  · exact fun hzero => h ⟨x, hx, hsite, hzero⟩

/-- **Interpretation divides by zero only where a contour is flat.**  For a tuning without fault and
any program: a division other than that by the depth of a pass is by zero exactly if the tolerance
of interpolation is below zero and a roughing cycle makes a pass at a diameter that the first
segment of its contour with this diameter has all along. -/
theorem Program.dividesByZero_iff {t : Tuning ℝ} (h : t.fault? = none) (p : Program ℝ) :
    p.DividesByZero t ↔
      t.cycle.interpolationTolerance < 0 ∧ ∃ v ∈ Walk.visits t p, ∃ contour,
        v.Roughs t p contour ∧ ∃ i, 1 ≤ i ∧ i ≤ (v.roughing t).passCount contour ∧
          (v.roughing t).IsFlatAt t.cycle contour i := by
  have ht := (Tuning.fault?_eq_none_iff.1 h).2.2.1
  constructor
  · rintro ⟨d, hd, hsite, hzero⟩
    rcases List.mem_append.1 hd with hd | hd
    · obtain ⟨v, hv, hd⟩ := List.mem_flatMap.1 hd
      obtain ⟨contour, hroughs, i, h1, hi, hflat⟩ :=
        (Walk.exists_zero_divisor_iff ht).1 ⟨d, hd, hsite, hzero⟩
      exact ⟨hflat.tolerance_neg, v, hv, contour, hroughs, i, h1, hi, hflat⟩
    · exact absurd hzero (Subdivision.sound_of_mem_divisions hd)
  · rintro ⟨-, v, hv, contour, hroughs, i, h1, hi, hflat⟩
    exact dividesByZero_of_isFlatAt h hv hroughs h1 hi hflat

/-- The standard tuning, but for its cycles. -/
noncomputable def Tuning.withCycle (c : CycleSettings ℝ) : Tuning ℝ :=
  { (.standard : Tuning ℝ) with cycle := c }

theorem Tuning.fault?_withCycle_eq_none_iff {c : CycleSettings ℝ} :
    (withCycle c).fault? = none ↔ 0 < c.depth ∧ 0 ≤ c.retract ∧ 0 ≤ c.roughFeed := by
  have hstep : (0 : ℝ) < 0.4 := by norm_num
  have hpoints : (24 : UInt64) ≠ 0 := by decide
  have hangle : 0 < Real.pi / 32.0 := div_pos Real.pi_pos (by norm_num)
  rw [fault?_eq_none_iff]
  exact ⟨fun h => h.2.2.2, fun h => ⟨hstep, hpoints, hangle, h⟩⟩

/-! ### A shaft -/

/-- A shaft is turned down to a diameter that its contour has all along. -/
def Source.shaft : Source :=
  ⟨#["G0 X24 Z2", "G71 P1 Q2", "N1 G0 X20 Z0", "N2 G1 Z-10"]⟩

/-- The line that calls its roughing cycle, in whole numbers. -/
def Line.wholeShaftCycle : Line ℤ := ⟨[⟨.g, 71⟩, ⟨.p, 1⟩, ⟨.q, 2⟩]⟩

/-- The line that calls its roughing cycle. -/
def Line.shaftCycle : Line ℝ := wholeShaftCycle.map (↑)

theorem Line.shaftCycle_eq : shaftCycle = ⟨[⟨.g, 71⟩, ⟨.p, 1⟩, ⟨.q, 2⟩]⟩ := by
  simp [shaftCycle, wholeShaftCycle, map, Word.map]

namespace Program

/-- The words of its program, in whole numbers. -/
def wholeShaft : Program ℤ :=
  ⟨#[⟨[⟨.g, 0⟩, ⟨.x, 24⟩, ⟨.z, 2⟩]⟩, .wholeShaftCycle,
    ⟨[⟨.n, 1⟩, ⟨.g, 0⟩, ⟨.x, 20⟩, ⟨.z, 0⟩]⟩, ⟨[⟨.n, 2⟩, ⟨.g, 1⟩, ⟨.z, -10⟩]⟩]⟩

/-- The words of its program. -/
def shaft : Program ℝ := wholeShaft.map (↑)

theorem shaft_eq : shaft = ⟨#[⟨[⟨.g, 0⟩, ⟨.x, 24⟩, ⟨.z, 2⟩]⟩, .shaftCycle,
    ⟨[⟨.n, 1⟩, ⟨.g, 0⟩, ⟨.x, 20⟩, ⟨.z, 0⟩]⟩, ⟨[⟨.n, 2⟩, ⟨.g, 1⟩, ⟨.z, -10⟩]⟩]⟩ := by
  simp [shaft, wholeShaft, map, Line.map, Word.map, Line.shaftCycle]

theorem read_shaft : read Source.shaft = .ok shaft :=
  read_of_whole? (by decide +kernel)

theorem labels_shaft : shaft.labels = [(1, 2), (2, 3)] := by
  simp [labels, shaft_eq, Line.shaftCycle_eq, Line.label?, Line.value?, Word.label?,
    Word.codeLimit, Option.filter]

end Program

/-- A place in whole numbers. -/
def Position.ofWhole (x z : ℤ) : Position ℝ := ⟨x, z⟩

namespace Walk

/-- Where the walk stands before the cycle. -/
noncomputable def State.shaft : State ℝ := ⟨⟨.ofWhole 24 2, .rapid, 0.0, none⟩, 1, true⟩

/-- The visit to its line. -/
noncomputable def Visit.shaft (t : Tuning ℝ) : Visit ℝ :=
  ⟨1, .shaftCycle, .shaft, step t .shaft .shaft .shaftCycle 1⟩

/-- The contour of the shaft. -/
def shaftContour : List (ContourPoint ℝ) :=
  [⟨.ofWhole 20 0, .feed, 2⟩, ⟨.ofWhole 20 (-10), .feed, 3⟩]

variable (t : Tuning ℝ)

theorem mem_visits_shaft : Visit.shaft t ∈ visits t .shaft := by
  have h0 : 0 < Program.shaft.lines.size := by decide
  have h1 : 1 < Program.shaft.lines.size := by decide
  have hstart : (step t .shaft .initial Program.shaft.lines[0] 0).state = .shaft := by
    simp [step, Program.shaft_eq, Line.isEmpty, State.entering, start, State.initial, State.shaft,
      Position.ofWhole, Modal.initial, Modal.withModesOf, Modal.withFeedOf, Modal.withMotionOf,
      Modal.target, Line.hasAxis, Line.has, Line.value?, Line.motion?, Line.codes, Motion.ofCode?]
  have hnext : (step t .shaft .initial Program.shaft.lines[0] 0).next 0 = 1 := by
    simp [step, Program.shaft_eq, Line.isEmpty, State.entering, start, State.initial, Outcome.next,
      Line.hasAxis, Line.has]
  rw [visits, visitsFrom_of_lt h0, hstart, hnext, visitsFrom_of_lt h1]
  exact List.mem_cons_of_mem _ List.mem_cons_self

theorem contour?_shaft : contour? t .shaft .shaftCycle = some shaftContour := by
  have hlabels : Line.shaftCycle.cycleLabels = .ok (1, 2) := by
    simp [Line.shaftCycle_eq, Line.cycleLabels, Line.value?, Contour.labelOf, Word.label?,
      Word.codeLimit, bind, Except.bind, pure, Except.pure, Option.filter]
  have hfirst : Program.shaft.lineOf? 1 = some 2 := by
    simp [Program.lineOf?, Program.labels_shaft]
  have hlast : Program.shaft.lineOf? 2 = some 3 := by
    simp [Program.lineOf?, Program.labels_shaft]
  simp only [contour?, hlabels, Contour.between, Contour.resolve, hfirst, hlast, bind, Except.bind,
    pure, Except.pure]
  simp [Contour.linesBetween, Program.shaft_eq, Line.shaftCycle_eq, shaftContour,
    Position.ofWhole, Contour.ofLines, Contour.Tracing.step, Contour.Tracing.initial, Line.hasAxis,
    Line.has, Line.value?, Contour.Tracing.target, Contour.Tracing.motionOn, Line.motion?,
    Line.codes, Position.isNear, Position.tolerance, Contour.Tracing.pathTo, Motion.ofCode?,
    Motion.rotation?, Motion.kind, Except.toOption, Position.origin]
  norm_num

theorem roughs_shaft : (Visit.shaft t).Roughs t .shaft shaftContour where
  started := rfl
  calls := by
    simp [Visit.shaft, Line.shaftCycle_eq, Line.callsRoughing, Line.hasCode, Line.codes,
      Line.hasLabels, Line.has]
  contour_eq := contour?_shaft t
  length := le_rfl

theorem roughing_shaft : ((Visit.shaft t).roughing t).start = ⟨24, 2⟩ ∧
    ((Visit.shaft t).roughing t).cut.depth = t.cycle.depth ∧
    ((Visit.shaft t).roughing t).allowanceX = 0 := by
  simp [Visit.roughing, Visit.inForce, Visit.shaft, State.shaft, Position.ofWhole,
    Line.shaftCycle_eq, roughing, Modal.withModesOf, Modal.withFeedOf, Modal.withMotionOf,
    Line.motion?, Line.codes, Line.value?, Motion.ofCode?, Scalar.zero_real]

theorem finishDiameter_shaft :
    ((Visit.shaft t).roughing t).finishDiameter shaftContour = 20 := by
  have hsmallest : Roughing.smallest shaftContour = 20 := by
    have hmem : Roughing.smallest shaftContour ∈ shaftContour.map fun p => p.x :=
      Scalar.least_mem (by simp [shaftContour])
    simpa [shaftContour, Position.ofWhole] using hmem
  rw [Roughing.finishDiameter, hsmallest, (roughing_shaft t).2.2]
  norm_num

end Walk

namespace Program

/-- With the standard tuning it is turned without a division by zero. -/
theorem dividesByZero_iff_shaft : (Tuning.standard : Tuning ℝ).fault? = none ∧
    ¬shaft.DividesByZero .standard := by
  have hvalid : (Tuning.standard : Tuning ℝ).fault? = none := by
    refine Tuning.fault?_withCycle_eq_none_iff.2 ?_
    norm_num [CycleSettings.standard]
  refine ⟨hvalid, fun h => ?_⟩
  have hneg := ((dividesByZero_iff hvalid shaft).1 h).1
  norm_num [Tuning.standard, CycleSettings.standard] at hneg

/-- With a tolerance of interpolation below zero its contour is interpolated where it is flat,
although the tuning has no fault. -/
theorem dividesByZero_shaft : ∃ t : Tuning ℝ, t.fault? = none ∧ read Source.shaft = .ok shaft ∧
    shaft.DividesByZero t := by
  let t : Tuning ℝ := .withCycle { (.standard : CycleSettings ℝ) with interpolationTolerance := -1 }
  have hvalid : t.fault? = none := by
    refine Tuning.fault?_withCycle_eq_none_iff.2 ?_
    norm_num [CycleSettings.standard]
  obtain ⟨hstart, hdepth, hallowance⟩ := Walk.roughing_shaft t
  have hdiameter : ((Walk.Visit.shaft t).roughing t).passDiameter Walk.shaftContour 1 = 20 := by
    rw [Roughing.passDiameter_eq, hstart, hdepth, Walk.finishDiameter_shaft]
    norm_num [t, Tuning.withCycle, CycleSettings.standard]
  have hcount : 1 ≤ ((Walk.Visit.shaft t).roughing t).passCount Walk.shaftContour := by
    rw [Roughing.passCount_eq]
    exact le_max_left _ _
  have hflat : ((Walk.Visit.shaft t).roughing t).IsFlatAt t.cycle Walk.shaftContour 1 := by
    refine ⟨⟨.ofWhole 20 0, .feed, 2⟩, ⟨.ofWhole 20 (-10), .feed, 3⟩,
      ⟨⟨?_, ?_⟩, [], [], rfl, List.forall_mem_nil _⟩, rfl⟩
    · rw [hdiameter, hallowance]
      simp [Position.ofWhole]
    · simp [t, Tuning.withCycle, Position.ofWhole]
  exact ⟨t, hvalid, read_shaft, dividesByZero_of_isFlatAt hvalid (Walk.mem_visits_shaft t)
    (Walk.roughs_shaft t) le_rfl hcount hflat⟩

end Program

end Lathe
