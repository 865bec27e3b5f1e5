import Lathe.Motion.Walk
import Mathlib.Tactic.SplitIfs

/-!
# Modes of a line

A line puts at most a feed and a motion in force.  `Modal.withModesOf_eq` says so once, field by
field; what else stays in force is as it was.
-/

namespace Lathe

variable {α : Type} [Scalar α]

/-- The feed that a line puts in force: that of its first F word, unless it is below zero. -/
def Line.feed? (l : Line α) : Option α :=
  (l.value? .f).filter fun feed => !decide (feed < 0.0)

namespace Modal

variable (m : Modal α) (l : Line α)

theorem withFeedOf_eq : m.withFeedOf l = { m with feed := l.feed?.getD m.feed } := by
  unfold withFeedOf setFeed Line.feed?
  cases l.value? .f with
  | none => rfl
  | some feed => by_cases h : feed < 0.0 <;> simp [Option.filter, h]

/-- **What a line puts in force.** -/
theorem withModesOf_eq : m.withModesOf l =
    { m with feed := l.feed?.getD m.feed, motion := l.motion?.getD m.motion } := by
  rw [withModesOf, withFeedOf_eq, withMotionOf]
  cases l.motion? <;> rfl

@[simp] theorem withModesOf_position : (m.withModesOf l).position = m.position := by
  rw [withModesOf_eq]

@[simp] theorem withModesOf_motion : (m.withModesOf l).motion = l.motion?.getD m.motion := by
  rw [withModesOf_eq]

@[simp] theorem withModesOf_feed : (m.withModesOf l).feed = l.feed?.getD m.feed := by
  rw [withModesOf_eq]

@[simp] theorem withModesOf_pending : (m.withModesOf l).pending = m.pending := by
  rw [withModesOf_eq]

end Modal

namespace Walk

variable (s : State α) (l : Line α)

/-- A line does not move the tool by what it puts in force. -/
theorem entering_position : (s.entering l).modal.position = s.modal.position :=
  s.modal.withModesOf_position l

theorem target_entering : (s.entering l).modal.target l = s.modal.target l := by
  rw [Modal.target, Modal.target, entering_position]

end Walk

end Lathe
