import Lathe.Proofs.Motion.AuxCodes
import Lathe.Proofs.Motion.Padding

/-!
# Contours and the walk through a program

A cycle traces its contour on its own, without the walk that traces the program at large: it keeps
a place and a motion of its own, skips lines in its own way, and starts wherever its first label is.
Both come to the same.  Let the lines between the two labels call no cycle and name an axis wherever
they select a motion.  Then the contour has the points, the kinds and the lines that the walk has in
these lines alone, but for the marks that M codes leave (`Contour.between_eq_walk`).

* `Line.drawsContour` : what is asked of the lines.
* `Program.excerpt` : the lines between two others as a program of their own.
* `Walk.Tracks` : the walk and the trace of a contour stand at the same place.
  `Walk.Tracks.step` is one line, `Walk.Tracks.visitsFrom` all from one on.
-/

namespace Lathe

variable {α : Type}

/-- The lines of a program from one index to another, both included, as a program of their own. -/
def Program.excerpt (p : Program α) (first last : Nat) : Program α :=
  ⟨p.lines.extract first (last + 1)⟩

/-- The point comes from a line with an axis word. -/
def Point.isOfAxisLine (p : Program α) (q : Point α) : Bool :=
  (q.line.bind fun i => p.lines[i]?).any Line.hasAxis

/-- The point as one of a contour, for a program whose lines are counted from `base` on; the start
counts as a straight cut. -/
def Point.toContour (base : Nat) (q : Point α) : ContourPoint α :=
  ⟨q.toPosition, if q.kind = .start then .feed else q.kind, base + q.line.getD 0⟩

/-- The lines between two others are those of the excerpt. -/
theorem Contour.linesBetween_eq_excerpt (p : Program α) (a b : Nat) :
    linesBetween p a b = (p.excerpt a b).lines.toList.zipIdx a := by
  have hlines : (p.excerpt a b).lines.toList = (p.lines.toList.drop a).take (b + 1 - a) := by
    rw [Program.excerpt, Array.toList_extract]
  rw [linesBetween, hlines]
  refine List.ext_getElem? fun i => ?_
  by_cases hi : i < b + 1 - a
  · simp [List.getElem?_zipIdx, hi]
  · simp [hi]

variable [Scalar α]

/-- The line calls no cycle, and it names an axis if it selects a motion. -/
def Line.drawsContour (l : Line α) : Bool :=
  !l.hasCode 70 && !l.hasCode 71 && (l.hasAxis || l.motion?.isNone)

namespace Walk

/-- The walk stands where the trace of a contour stands. -/
structure Tracks (s : State α) (c : Contour.Tracing α) : Prop where
  /-- The place is the same. -/
  position : s.modal.position = c.position
  /-- The motion in force is the same. -/
  motion : s.modal.motion = c.motion
  /-- Both have had their first point, or neither. -/
  started : s.started = c.started

variable {t : Tuning α} {p : Program α} {s : State α} {c : Contour.Tracing α} {l : Line α}
  {index base : Nat}

/-- The points of a walk as those of a contour, without those of lines that name no axis. -/
def contourOf (p : Program α) (base : Nat) (points : List (Point α)) : List (ContourPoint α) :=
  (points.filter (·.isOfAxisLine p)).map (·.toContour base)

/-- The walk takes a line as the trace of a contour does. -/
structure StepAgrees (t : Tuning α) (p : Program α) (base : Nat) (c : Contour.Tracing α)
    (l : Line α) (index : Nat) (o : Outcome α) : Prop where
  /-- The line leads both to the same place. -/
  tracks : Tracks o.state (c.step t.arc l (base + index)).1
  /-- The walk goes on behind it. -/
  resume : o.resume = none
  /-- It gives both the same points. -/
  points : contourOf p base o.points = (c.step t.arc l (base + index)).2

/-- The points of a line with an axis word are points of the contour. -/
theorem contourOf_make {path : List (Position α)} {kind : Kind} {block : Nat} {feed : α}
    {aux : Option AuxCode} (hl : p.lines[index]? = some l) (haxis : l.hasAxis = true) :
    contourOf p base (path.map fun q => .make q kind block feed (some index) aux) =
      path.map fun q => ⟨q, if kind = .start then .feed else kind, base + index⟩ := by
  have hall : ∀ q ∈ path.map fun q => Point.make q kind block feed (some index) aux,
      q.isOfAxisLine p = true := by
    simp [Point.isOfAxisLine, Point.make, hl, haxis]
  rw [contourOf, List.filter_eq_self.2 hall, List.map_map]
  rfl

omit [Scalar α] in
/-- A line without an axis word leaves marks at most, and the contour skips it. -/
theorem contourOf_of_still {points : List (Point α)} (hl : p.lines[index]? = some l)
    (haxis : l.hasAxis = false) (hline : ∀ q ∈ points, q.line = some index) :
    contourOf p base points = [] := by
  have hnone : ∀ q ∈ points, ¬ q.isOfAxisLine p = true := by
    intro q hq
    simp [Point.isOfAxisLine, hline q hq, hl, haxis]
  rw [contourOf, List.filter_eq_nil_iff.2 hnone]
  rfl

theorem isStill_eq_false_of_hasAxis (haxis : l.hasAxis = true) : l.isStill = false := by
  simp [Line.isStill, haxis]

omit [Scalar α] in
theorem isEmpty_of_hasAxis (haxis : l.hasAxis = true) : l.isEmpty = false := by
  obtain hx | hz := Bool.or_eq_true_iff.1 haxis
  · exact Line.isEmpty_of_has hx
  · exact Line.isEmpty_of_has hz

theorem tracks_entering (h : Tracks s c) (l : Line α) :
    (s.entering l).modal.position = c.position ∧ (s.entering l).modal.motion = c.motionOn l ∧
      (s.entering l).modal.target l = c.target l := by
  have hpos : (s.entering l).modal.position = c.position :=
    (Modal.withModesOf_position s.modal l).trans h.position
  refine ⟨hpos, ?_, ?_⟩
  · rw [Contour.Tracing.motionOn, ← h.motion]
    exact Modal.withModesOf_motion s.modal l
  · rw [Modal.target, Contour.Tracing.target, hpos]

/-- A line without an axis word leaves the place and the motion as they are. -/
theorem Tracks.step_of_still (h : Tracks s c) (h₇₀ : l.hasCode 70 = false)
    (h₇₁ : l.hasCode 71 = false) (haxis : l.hasAxis = false) (hmotion : l.motion? = none) :
    Tracks (Walk.step t p s l index).state c ∧ (Walk.step t p s l index).resume = none := by
  obtain ⟨hpos, hmot, -⟩ := tracks_entering h l
  rw [Contour.Tracing.motionOn, hmotion, Option.getD_none] at hmot
  have hentering : Tracks (s.entering l) c := ⟨hpos, hmot, h.started⟩
  unfold Walk.step
  by_cases hempty : l.isEmpty = true
  · rw [if_pos hempty]
    exact ⟨h, rfl⟩
  rw [if_neg hempty]
  by_cases hs : s.started = true
  · have hstill : l.isStill = true := by simp [Line.isStill, hmotion, haxis]
    rw [if_pos (by simpa using hs), perform, Line.action_of_plain h₇₀ h₇₁, if_pos hstill]
    cases l.aux? with
    | none => exact ⟨hentering, rfl⟩
    | some code => exact ⟨hentering, rfl⟩
  · rw [if_neg (by simpa using hs), start, haxis]
    exact ⟨hentering, rfl⟩

/-- A line with an axis word leads on from the place reached. -/
theorem Tracks.step_of_started (h : Tracks s c) (hl : p.lines[index]? = some l)
    (h₇₀ : l.hasCode 70 = false) (h₇₁ : l.hasCode 71 = false) (haxis : l.hasAxis = true)
    (hs : s.started = true) : StepAgrees t p base c l index (Walk.step t p s l index) := by
  obtain ⟨hpos, hmot, htarget⟩ := tracks_entering h l
  have hc : c.started = true := h.started ▸ hs
  have hwalk : Walk.step t p s l index = move t (s.entering l) l index := by
    unfold Walk.step
    rw [if_neg (by simp [isEmpty_of_hasAxis haxis]), if_pos (by simpa using hs), perform,
      Line.action_of_plain h₇₀ h₇₁, if_neg (by simp [isStill_eq_false_of_hasAxis haxis])]
  rw [hwalk]
  by_cases hnear : c.position.isNear (c.target l) = true
  · have hstep : c.step t.arc l (base + index) = (⟨c.position, c.motionOn l, true⟩, []) := by
      simp [Contour.Tracing.step, haxis, hc, hnear]
    have hmove : move t (s.entering l) l index = .quiet (s.entering l) := by
      rw [move, hpos, htarget]
      exact if_pos hnear
    rw [hmove]
    refine ⟨?_, rfl, ?_⟩
    · rw [hstep]
      exact ⟨hpos, hmot, hs⟩
    · rw [hstep]
      rfl
  · have hstep : c.step t.arc l (base + index) = (⟨c.target l, c.motionOn l, true⟩,
        (Contour.Tracing.pathTo t.arc (c.motionOn l) c.position (c.target l)
          ((l.value? .r).getD 0.0)).map fun q => ⟨q, (c.motionOn l).kind, base + index⟩) := by
      simp [Contour.Tracing.step, haxis, hc, hnear]
    unfold move
    dsimp only
    rw [hpos, hmot, htarget, if_neg hnear]
    refine ⟨?_, rfl, ?_⟩
    · rw [hstep]
      exact ⟨rfl, rfl, hs⟩
    · rw [hstep]
      dsimp only
      rw [contourOf_make hl haxis, if_neg (Motion.kind_ne_start _)]

/-- The first line with an axis word gives the first point. -/
theorem Tracks.step_of_not_started (h : Tracks s c) (hl : p.lines[index]? = some l)
    (haxis : l.hasAxis = true) (hs : s.started = false) :
    StepAgrees t p base c l index (Walk.step t p s l index) := by
  obtain ⟨-, hmot, htarget⟩ := tracks_entering h l
  have hc : c.started = false := h.started ▸ hs
  have hwalk : Walk.step t p s l index = start (s.entering l) l index := by
    unfold Walk.step
    rw [if_neg (by simp [isEmpty_of_hasAxis haxis]), if_neg (by simp [hs])]
  have hstep : c.step t.arc l (base + index) =
      (⟨c.target l, c.motionOn l, true⟩, [⟨c.target l, .feed, base + index⟩]) := by
    simp [Contour.Tracing.step, haxis, hc]
  rw [hwalk, start, if_pos haxis, htarget]
  refine ⟨?_, rfl, ?_⟩
  · rw [hstep]
    exact ⟨rfl, hmot, rfl⟩
  · rw [hstep]
    have hpoint : contourOf p base ([c.target l].map fun q =>
        .make q .start (s.entering l).block (s.entering l).modal.feed (some index) l.aux?) =
          [⟨c.target l, .feed, base + index⟩] := contourOf_make hl haxis
    exact hpoint

/-- **Both sides take a line in the same way.** -/
theorem Tracks.step (h : Tracks s c) (hl : p.lines[index]? = some l)
    (hdraws : l.drawsContour = true) : StepAgrees t p base c l index (Walk.step t p s l index) := by
  simp only [Line.drawsContour, Bool.and_eq_true, Bool.not_eq_true', Bool.or_eq_true,
    Option.isNone_iff_eq_none] at hdraws
  obtain ⟨⟨h₇₀, h₇₁⟩, hmotion⟩ := hdraws
  by_cases haxis : l.hasAxis = true
  · by_cases hs : s.started = true
    · exact h.step_of_started hl h₇₀ h₇₁ haxis hs
    · rw [Bool.not_eq_true] at hs
      exact h.step_of_not_started hl haxis hs
  · rw [Bool.not_eq_true] at haxis
    have hskip : c.step t.arc l (base + index) = (c, []) := by
      simp [Contour.Tracing.step, haxis]
    obtain ⟨htracks, hresume⟩ :=
      h.step_of_still h₇₀ h₇₁ haxis (hmotion.resolve_left (by simp [haxis]))
    refine ⟨?_, hresume, ?_⟩
    · rw [hskip]
      exact htracks
    · rw [hskip]
      exact contourOf_of_still hl haxis step_emits.line_eq

/-- **The walk through such lines traces the contour**, from every line on. -/
theorem Tracks.visitsFrom (h : Tracks s c) (hdraws : ∀ l ∈ p.lines.toList, l.drawsContour = true) :
    contourOf p base ((Walk.visitsFrom t p s index).flatMap fun v => v.outcome.points) =
      Contour.ofLines t.arc c ((p.lines.toList.zipIdx base).drop index) := by
  induction hn : p.lines.size - index generalizing s c index with
  | zero =>
    have hend : p.lines.size ≤ index := by omega
    rw [visitsFrom_of_le hend, List.drop_eq_nil_of_le (by simpa using hend)]
    rfl
  | succ n ih =>
    have hlt : index < p.lines.size := by omega
    have hl : p.lines[index]? = some p.lines[index] := Array.getElem?_eq_getElem hlt
    have hstep : StepAgrees t p base c p.lines[index] index
        (Walk.step t p s p.lines[index] index) := h.step hl (hdraws _ (by simp))
    have hdrop : (p.lines.toList.zipIdx base).drop index =
        (p.lines[index], base + index) :: (p.lines.toList.zipIdx base).drop (index + 1) := by
      rw [List.drop_eq_getElem_cons (by simpa using hlt)]
      simp
    have hnext : (Walk.step t p s p.lines[index] index).next index = index + 1 := by
      simp [Outcome.next, hstep.resume]
    have hrest : contourOf p base ((Walk.visitsFrom t p (Walk.step t p s p.lines[index] index).state
        (index + 1)).flatMap fun v => v.outcome.points) = _ := ih hstep.tracks (by omega)
    rw [visitsFrom_of_lt hlt, hdrop, hnext, Contour.ofLines]
    dsimp only
    rw [← hrest, ← hstep.points]
    simp [contourOf]

end Walk

namespace Contour

variable {t : Tuning α} {p : Program α}

/-- **A contour is what the walk makes of its lines.**  Between two labels let no line call a cycle,
and let each one that selects a motion name an axis.  Then the contour is there, and it has the
places, the kinds and the lines that the walk has in these lines alone, with the same setting of
arcs; only the marks that M codes leave are not part of it. -/
theorem between_eq_walk (t : Tuning α) (p : Program α) {first last a b : Nat}
    (hfirst : p.lineOf? first = some a) (hlast : p.lineOf? last = some b)
    (hdraws : ∀ i l, a ≤ i → i ≤ b → p.lines[i]? = some l → l.drawsContour = true) :
    between t.arc p first last = .ok (((Walk.points t (p.excerpt a b)).filter
      (·.isOfAxisLine (p.excerpt a b))).map (·.toContour a)) := by
  have hlines : ∀ l ∈ (p.excerpt a b).lines.toList, l.drawsContour = true := by
    intro l hl
    obtain ⟨⟨l', i⟩, hmem, rfl⟩ : ∃ li ∈ linesBetween p a b, li.1 = l := by
      rw [linesBetween_eq_excerpt]
      exact List.exists_of_mem_map (f := Prod.fst) (by rwa [List.zipIdx_map_fst])
    obtain ⟨hi, hai, hib⟩ := mem_linesBetween_iff.1 hmem
    exact hdraws i l' hai hib hi
  have htracks : Walk.Tracks (.initial : Walk.State α) .initial := ⟨rfl, rfl, rfl⟩
  have hwalk : Walk.contourOf (p.excerpt a b) a (Walk.points t (p.excerpt a b)) =
      ofLines t.arc .initial (((p.excerpt a b).lines.toList.zipIdx a).drop 0) :=
    htracks.visitsFrom hlines
  rw [List.drop_zero, ← linesBetween_eq_excerpt] at hwalk
  simp only [between, resolve, hfirst, hlast]
  exact congrArg Except.ok hwalk.symm

/-- A contour with an M code by itself, a blank line, a move that leads nowhere and an arc, which is
finished before the program comes to it. -/
def markedContour : Source :=
  ⟨#["(part 9)", "G0 X30 Z2", "G70 P1 Q2", "N1 G0 X20", "M8", "", "G1 Z-10 F0.2 M9", "X20",
    "N2 G2 X26 Z-13 R3", "M30"]⟩

theorem between_eq_walk_markedContour :
    ∃ p : Program Float, Program.read markedContour = .ok p ∧
      p.lineOf? 1 = some 3 ∧ p.lineOf? 2 = some 8 ∧
      (∀ i l, 3 ≤ i → i ≤ 8 → p.lines[i]? = some l → l.drawsContour = true) ∧
      between Tuning.coarse.arc p 1 2 = .ok (((Walk.points .coarse (p.excerpt 3 8)).filter
        (·.isOfAxisLine (p.excerpt 3 8))).map (·.toContour 3)) := by
  have hread : (Program.read (α := Float) markedContour).toOption.map (fun p =>
      (p.lineOf? 1, p.lineOf? 2, p.lines.toList.map fun l => l.drawsContour)) =
        some (some 3, some 8, [true, true, false, true, true, true, true, true, true, true]) := by
    decide +kernel
  cases hp : Program.read (α := Float) markedContour with
  | error e => rw [hp] at hread; cases hread
  | ok p =>
    rw [hp] at hread
    simp only [Except.toOption, Option.map_some, Option.some.injEq, Prod.mk.injEq] at hread
    obtain ⟨hfirst, hlast, hlines⟩ := hread
    have hdraws : ∀ i l, 3 ≤ i → i ≤ 8 → p.lines[i]? = some l → l.drawsContour = true := by
      intro i l hai hib hl
      have hi := congrArg (·[i]?) hlines
      rw [List.getElem?_map, Array.getElem?_toList, hl] at hi
      obtain rfl | rfl | rfl | rfl | rfl | rfl :
          i = 3 ∨ i = 4 ∨ i = 5 ∨ i = 6 ∨ i = 7 ∨ i = 8 := by omega
      all_goals exact Option.some.inj hi
    exact ⟨p, rfl, hfirst, hlast, hdraws, between_eq_walk .coarse p hfirst hlast hdraws⟩

end Contour

end Lathe
