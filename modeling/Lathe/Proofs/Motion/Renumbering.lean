import Lathe.Motion.Subdivision
import Mathlib.Data.List.Basic
import Mathlib.Tactic.SplitIfs

/-!
# Renumbering program lines

Contours and points know their program lines by index.  Nothing but the finishing cycle looks at
these indices, and that one only asks whether two of them are equal; so cycles and subdivision
commute with a renumbering of lines that keeps different lines apart.

* `Roughing.expand_renumber`, `Finishing.expand_renumber` : cycles.
* `Contour.ofLines_renumber` : contours.
* `Subdivision.subdivide_renumber` : subdivision.
-/

namespace Lathe

variable {α : Type}

/-- The point of a line with another index. -/
def Point.renumber (f : Nat → Nat) (q : Point α) : Point α := { q with line := q.line.map f }

/-- The contour point of a line with another index. -/
def ContourPoint.renumber (f : Nat → Nat) (c : ContourPoint α) : ContourPoint α :=
  { c with line := f c.line }

/-- The stamp of a line with another index. -/
def CycleLine.renumber (f : Nat → Nat) (stamp : CycleLine) : CycleLine :=
  { stamp with line := f stamp.line }

/-- The points of a cycle whose line has another index. -/
def Expansion.renumber (f : Nat → Nat) (e : Expansion α) : Expansion α :=
  { e with points := e.points.map (·.renumber f) }

/-- The trace of a program whose lines have other indices. -/
def Trace.renumber (f : Nat → Nat) (tr : Trace α) : Trace α :=
  .ofList (tr.points.toList.map (·.renumber f))

variable [Scalar α] (f : Nat → Nat)

/-! ### Roughing cycles -/

namespace Roughing

variable (c : Roughing α) (s : CycleSettings α) (contour : List (ContourPoint α))
  (stamp : CycleLine)

@[simp] theorem smallest_renumber : smallest (contour.map (·.renumber f)) = smallest contour := by
  simp [smallest, ContourPoint.renumber, Function.comp_def]

@[simp] theorem deepest_renumber : deepest (contour.map (·.renumber f)) = deepest contour := by
  simp [deepest, ContourPoint.renumber, Function.comp_def]

@[simp] theorem finishDiameter_renumber :
    c.finishDiameter (contour.map (·.renumber f)) = c.finishDiameter contour := by
  simp [finishDiameter]

@[simp] theorem passDiameter_renumber (i : Nat) :
    c.passDiameter (contour.map (·.renumber f)) i = c.passDiameter contour i := by
  simp [passDiameter]

@[simp] theorem passCount_renumber :
    c.passCount (contour.map (·.renumber f)) = c.passCount contour := by
  simp [passCount]

@[simp] theorem firstCrossing?_renumber (tolerance target : α) :
    firstCrossing? tolerance target (contour.map (·.renumber f)) =
      firstCrossing? tolerance target contour := by
  have hsegments : segments (contour.map (·.renumber f)) =
      (segments contour).map (Prod.map (·.renumber f) (·.renumber f)) := by
    rw [segments, segments, ← List.map_tail, List.zip_map]
  rw [firstCrossing?, firstCrossing?, hsegments, List.findSome?_map]
  rfl

@[simp] theorem depthAt_renumber (tolerance faceZ target : α) :
    depthAt tolerance (contour.map (·.renumber f)) faceZ target =
      depthAt tolerance contour faceZ target := by
  simp [depthAt]

@[simp] theorem stop_renumber (diameter : α) :
    c.stop s (contour.map (·.renumber f)) diameter = c.stop s contour diameter := by
  cases contour with
  | nil => rfl
  | cons first rest =>
    have h := depthAt_renumber f (first :: rest) s.interpolationTolerance first.z
      (diameter - Scalar.abs c.allowanceX)
    exact congrArg (· + Scalar.abs c.allowanceZ) h

theorem pass_renumber (faceZ : α) (i : Nat) :
    c.pass s (contour.map (·.renumber f)) faceZ (stamp.renumber f) i =
      (c.pass s contour faceZ stamp i).map (·.renumber f) := by
  unfold pass
  dsimp only
  rw [passDiameter_renumber, stop_renumber]
  split_ifs <;> rfl

theorem outline_renumber (block : Nat) :
    c.outline (contour.map (·.renumber f)) (stamp.renumber f) block =
      (c.outline contour stamp block).map (·.renumber f) := by
  rw [outline, finishDiameter_renumber]
  simp [outline, ContourPoint.renumber, CycleLine.renumber, Point.renumber, Point.make]

/-- **A roughing cycle** looks at the course of its contour only. -/
theorem expand_renumber :
    c.expand s (contour.map (·.renumber f)) (stamp.renumber f) =
      (c.expand s contour stamp).renumber f := by
  cases contour with
  | nil => rfl
  | cons first rest =>
    have hpass : c.pass s ((first :: rest).map (·.renumber f)) (first.renumber f).z
        (stamp.renumber f) = fun i =>
          (c.pass s (first :: rest) first.z stamp i).map (·.renumber f) := by
      funext i
      exact c.pass_renumber f s (first :: rest) stamp first.z i
    rw [List.map_cons, expand, ← List.map_cons, passCount_renumber, outline_renumber, hpass,
      ← List.map_flatMap]
    simp [expand, Expansion.renumber, Point.renumber, Point.make, CycleLine.renumber]

end Roughing

/-! ### Finishing cycles -/

namespace Finishing

variable {f} (c : Finishing α) (stamp : CycleLine)

theorem cuts_renumber (hf : f.Injective) (line block : Nat) (contour : List (ContourPoint α)) :
    c.cuts (stamp.renumber f) (f line) block (contour.map (·.renumber f)) =
      ((c.cuts stamp line block contour).1.map (·.renumber f),
        (c.cuts stamp line block contour).2) := by
  induction contour generalizing line block with
  | nil => rfl
  | cons p rest ih =>
    have hline : (p.renumber f).line = f p.line := rfl
    rw [List.map_cons, cuts, cuts, hline]
    -- the cycle asks whether two lines are one, which the renumbering does not change
    simp only [hf.eq_iff, ih]
    rfl

/-- **A finishing cycle** only looks at whether two points of its contour are of one line. -/
theorem expand_renumber (hf : f.Injective) (contour : List (ContourPoint α)) :
    c.expand (contour.map (·.renumber f)) (stamp.renumber f) =
      (c.expand contour stamp).renumber f := by
  cases contour with
  | nil => rfl
  | cons first rest =>
    have hline : (first.renumber f).line = f first.line := rfl
    have hblock : (stamp.renumber f).block = stamp.block := rfl
    rw [List.map_cons, expand, expand, hline, hblock, cuts_renumber c stamp hf]
    simp [Expansion.renumber, ContourPoint.renumber, CycleLine.renumber, Point.renumber, Point.make]

end Finishing

/-! ### Contours -/

namespace Contour

theorem Tracing.step_renumber (s : ArcSettings α) (t : Tracing α) (l : Line α) (i : Nat) :
    t.step s l (f i) = ((t.step s l i).1, (t.step s l i).2.map (·.renumber f)) := by
  unfold step
  dsimp only
  split_ifs <;> simp [ContourPoint.renumber]

/-- The points of renumbered lines are renumbered points. -/
theorem ofLines_renumber (s : ArcSettings α) (t : Tracing α) (lines : List (Line α × Nat)) :
    ofLines s t (lines.map (Prod.map id f)) = (ofLines s t lines).map (·.renumber f) := by
  induction lines generalizing t with
  | nil => rfl
  | cons li rest ih =>
    rw [List.map_cons, ofLines, ofLines]
    dsimp only [Prod.map, id]
    rw [Tracing.step_renumber, List.map_append, ih]

end Contour

/-! ### Subdivision -/

namespace Subdivision

theorem inserted_renumber (limit : α) (a b : Point α) :
    inserted limit (a.renumber f) (b.renumber f) = (inserted limit a b).map (·.renumber f) := by
  have hdistance : (a.renumber f).distance (b.renumber f) = a.distance b := rfl
  unfold inserted
  rw [hdistance]
  dsimp only
  split_ifs
  · rw [List.map_map]
    rfl
  · rfl

/-- **Subdivision** does not look at lines. -/
theorem subdivide_renumber (limit : α) (path : List (Point α)) :
    subdivide limit (path.map (·.renumber f)) = (subdivide limit path).map (·.renumber f) := by
  cases path with
  | nil => rfl
  | cons first rest =>
    rw [List.map_cons, subdivide, subdivide]
    dsimp only
    split_ifs
    · rw [← List.map_cons, List.zip_map, List.flatMap_map, List.map_cons, List.map_flatMap]
      refine congrArg _ (congrArg (List.flatMap · _) (funext fun ab => ?_))
      rw [List.map_append, ← inserted_renumber]
      rfl
    · rfl

end Subdivision

end Lathe
