import Lathe.Motion.Arc
import Lathe.Program.Basic

/-!
# Contours

A canned cycle names its contour by the labels of a first and a last line.  `Contour.between`
walks these lines on its own: it starts at the origin in rapid motion, whatever the tool does in
the program at large.  The first line with an axis word gives the reference point; each later
one gives the point or the arc that leads to it.
-/

namespace Lathe

/-- A label that a cycle cannot use. -/
inductive LabelError (α : Type) where
  /-- No line declares it. -/
  | unresolved (label : Nat)
  /-- The value of the word is not a label. -/
  | notALabel (value : α)
  deriving DecidableEq, Repr

/-- A point of a contour. -/
structure ContourPoint (α : Type) extends Position α where
  /-- How the contour reaches it; the reference point counts as a straight cut. -/
  kind : Kind
  /-- The index of its program line. -/
  line : Nat
  deriving DecidableEq, Repr

namespace Contour

variable {α : Type} [Scalar α]

/-- The label that a word names. -/
def labelOf (v : α) : Except (LabelError α) Nat :=
  match Word.label? v with
  | some n => .ok n
  | none => .error (.notALabel v)

/-- Where the walk along the contour is. -/
structure Tracing (α : Type) where
  /-- The place reached. -/
  position : Position α
  /-- The motion in force. -/
  motion : Motion
  /-- The reference point has been seen. -/
  started : Bool
  deriving DecidableEq, Repr

namespace Tracing

/-- Before the first line. -/
def initial : Tracing α := ⟨.origin, .rapid, false⟩

/-- The motion in force on a line. -/
def motionOn (t : Tracing α) (l : Line α) : Motion :=
  l.motion?.getD t.motion

/-- Where a line leads: coordinates that it does not give stay. -/
def target (t : Tracing α) (l : Line α) : Position α :=
  ⟨(l.value? .x).getD t.position.x, (l.value? .z).getD t.position.z⟩

/-- The points that lead to a place under a motion, without the place they start from. -/
def pathTo (s : ArcSettings α) (motion : Motion) (a b : Position α) (radius : α) :
    List (Position α) :=
  match motion.rotation? with
  | some rotation => (Arc.polyline s a b radius rotation).drop 1
  | none => [b]

/-- Walk over one line, whose index is given. -/
def step (s : ArcSettings α) (t : Tracing α) (l : Line α) (index : Nat) :
    Tracing α × List (ContourPoint α) :=
  if l.hasAxis then
    let motion := t.motionOn l
    let target := t.target l
    if t.started then
      if t.position.isNear target then (⟨t.position, motion, true⟩, [])
      else
        let path := pathTo s motion t.position target ((l.value? .r).getD 0.0)
        (⟨target, motion, true⟩, path.map fun p => ⟨p, motion.kind, index⟩)
    -- the reference point counts as a straight cut whatever its motion
    else (⟨target, motion, true⟩, [⟨target, .feed, index⟩])
  else (t, [])

end Tracing

/-- The points that lines give, walked one after another; each line comes with its index. -/
def ofLines (s : ArcSettings α) (t : Tracing α) : List (Line α × Nat) → List (ContourPoint α)
  | [] => []
  | (l, i) :: rest =>
    let (t', points) := t.step s l i
    points ++ ofLines s t' rest

/-- The lines from one index to another, both included, each with its index. -/
def linesBetween (p : Program α) (first last : Nat) : List (Line α × Nat) :=
  (p.lines.toList.zipIdx.drop first).take (last + 1 - first)

/-- The index of the line that a label names. -/
def resolve (p : Program α) (label : Nat) : Except (LabelError α) Nat :=
  match p.lineOf? label with
  | some i => .ok i
  | none => .error (.unresolved label)

/-- The contour from the line with one label to the line with another. -/
def between (s : ArcSettings α) (p : Program α) (first last : Nat) :
    Except (LabelError α) (List (ContourPoint α)) := do
  let a ← resolve p first
  let b ← resolve p last
  return ofLines s .initial (linesBetween p a b)

end Contour

end Lathe
