import Lathe.Motion.Finishing
import Lathe.Motion.Modal

/-!
# Walking through a program

`Walk.visits` goes through the lines of a program in order, and `Walk.points` are the points that
they lead to.  Every block takes the next block number; the walk knows no largest one.  Nothing is
emitted before the first line with an axis word; that line gives the start.  From then on
`Line.action` says what a line does:

* an M code by itself leaves a mark where the tool is;
* G71 with U and without P announces cut parameters for the next roughing cycle;
* G71 with P and Q is a roughing cycle, after which the walk goes on behind the line that Q
  names, so that the contour is not cut again;
* G70 with P and Q is a finishing cycle;
* any other line with a motion code or an axis word is a move.

A cycle whose labels lead nowhere gives no points.
-/

namespace Lathe

/-- What the walk can be tuned with. -/
structure Tuning (α : Type) where
  /-- The largest distance between neighbouring points of the finished trace. -/
  maxStep : α
  /-- How arcs are cut into steps. -/
  arc : ArcSettings α
  /-- What cycles take where the program says nothing. -/
  cycle : CycleSettings α
  deriving DecidableEq, Repr

/-- What a line does once the tool has a place. -/
inductive Action (α : Type) where
  /-- Leave a mark with an M code. -/
  | mark (code : AuxCode)
  /-- Announce cut parameters. -/
  | announce (depth : α)
  /-- Expand a roughing cycle. -/
  | rough
  /-- Expand a finishing cycle. -/
  | finish
  /-- Move. -/
  | move
  /-- Nothing more. -/
  | nothing
  deriving DecidableEq, Repr

namespace Line

variable {α : Type} [Scalar α] (l : Line α)

/-- The line selects no motion and names no axis. -/
def isStill : Bool :=
  l.motion?.isNone && !l.hasAxis

/-- The line has the labels of a contour. -/
def hasLabels : Bool :=
  l.has .p && l.has .q

/-- What the line does when none of the cycles of G71 takes it. -/
def plainAction : Action α :=
  if l.hasCode 70 && l.hasLabels then .finish
  else if l.isStill then .nothing
  else .move

/-- What the line does when it is not a mark. -/
def busyAction : Action α :=
  if l.hasCode 71 then
    if l.has .p then
      if l.has .q then .rough else l.plainAction
    else match l.value? .u with
      | some depth => .announce depth
      | none => l.plainAction
  else l.plainAction

/-- What the line does. -/
def action : Action α :=
  match l.aux? with
  | some code =>
    if l.isStill && !(l.hasCode 70 || l.hasCode 71) then .mark code else l.busyAction
  | none => l.busyAction

/-- The labels of the contour that a cycle names; a label that is missing is none. -/
def cycleLabels : Except (LabelError α) (Nat × Nat) := do
  let first ← Contour.labelOf ((l.value? .p).getD (-1.0))
  let last ← Contour.labelOf ((l.value? .q).getD (-1.0))
  return (first, last)

end Line

namespace Walk

variable {α : Type} [Scalar α]

/-- Where the walk stands between two lines. -/
structure State (α : Type) where
  /-- What stays in force. -/
  modal : Modal α
  /-- The number of the last block. -/
  block : Nat
  /-- The tool has a place. -/
  started : Bool
  deriving DecidableEq, Repr

/-- Before the first line. -/
def State.initial : State α := ⟨.initial, 0, false⟩

/-- What one line leads to. -/
structure Outcome (α : Type) where
  /-- The state after the line. -/
  state : State α
  /-- The points that the line gives. -/
  points : List (Point α)
  /-- The line behind which the walk goes on, if it is not this one. -/
  resume : Option Nat
  deriving DecidableEq, Repr

/-- No points. -/
def Outcome.quiet (s : State α) : Outcome α := ⟨s, [], none⟩

/-- The contour that a cycle names, if its labels lead to one. -/
def contour? (t : Tuning α) (p : Program α) (l : Line α) : Option (List (ContourPoint α)) :=
  (do
    let (first, last) ← l.cycleLabels
    Contour.between t.arc p first last).toOption

/-- The line behind which the walk goes on after a roughing cycle: the one that Q names. -/
def resumeLine? (p : Program α) (l : Line α) : Option Nat :=
  l.cycleLabels.toOption.bind fun (_, last) => p.lineOf? last

/-- The first line with an axis word gives the start; before it the tool has no place. -/
def start (s : State α) (l : Line α) (index : Nat) : Outcome α :=
  if l.hasAxis then
    let place := s.modal.target l
    ⟨{ s with modal := { s.modal with position := place }, started := true },
      [.make place .start s.block s.modal.feed (some index) l.aux?], none⟩
  else .quiet s

/-- An M code by itself. -/
def mark (s : State α) (code : AuxCode) (index : Nat) : Outcome α :=
  ⟨s, [.make s.modal.position .rapid s.block s.modal.feed (some index) (some code)], none⟩

/-- Cut parameters for the next roughing cycle. -/
def announce (t : Tuning α) (s : State α) (l : Line α) (depth : α) : Outcome α :=
  let retract := match l.value? .r with
    | some r => Scalar.abs r
    | none => t.cycle.retract
  .quiet { s with modal := { s.modal with pending := some ⟨Scalar.abs depth, retract⟩ } }

/-- A move; one that leads nowhere is left out. -/
def move (t : Tuning α) (s : State α) (l : Line α) (index : Nat) : Outcome α :=
  let m := s.modal
  let target := m.target l
  if m.position.isNear target then .quiet s
  else
    let path := Contour.Tracing.pathTo t.arc m.motion m.position target ((l.value? .r).getD 0.0)
    ⟨{ s with modal := { m with position := target } },
      path.map fun p => .make p m.motion.kind s.block m.feed (some index) l.aux?, none⟩

/-- The roughing cycle of a line: announced cut parameters or the standard ones, and the feed in
force if it is above zero. -/
def roughing (t : Tuning α) (m : Modal α) (l : Line α) : Roughing α where
  start := m.position
  cut := m.pending.getD ⟨t.cycle.depth, t.cycle.retract⟩
  allowanceX := (l.value? .u).getD 0.0
  allowanceZ := (l.value? .w).getD 0.0
  feed := if 0.0 < m.feed then m.feed else t.cycle.roughFeed

/-- A roughing cycle.  It uses up the announced cut parameters, also if its contour has fewer
than two points and it gives none. -/
def rough (t : Tuning α) (p : Program α) (s : State α) (l : Line α) (index : Nat) :
    Outcome α :=
  let spent := { s with modal := { s.modal with pending := none } }
  let resume := resumeLine? p l
  match contour? t p l with
  | some (a :: b :: rest) =>
    let e := (roughing t s.modal l).expand t.cycle (a :: b :: rest) ⟨s.block, index, l.aux?⟩
    ⟨{ spent with block := e.lastBlock }, e.points, resume⟩
  | _ => ⟨spent, [], resume⟩

/-- A finishing cycle. -/
def finish (t : Tuning α) (p : Program α) (s : State α) (l : Line α) (index : Nat) :
    Outcome α :=
  match contour? t p l with
  | none => .quiet s
  | some contour =>
    let e := (Finishing.mk s.modal.position s.modal.feed).expand contour ⟨s.block, index, l.aux?⟩
    ⟨{ s with block := e.lastBlock }, e.points, none⟩

/-- What a line does once the tool has a place. -/
def perform (t : Tuning α) (p : Program α) (s : State α) (l : Line α) (index : Nat) :
    Outcome α :=
  match l.action with
  | .mark code => mark s code index
  | .announce depth => announce t s l depth
  | .rough => rough t p s l index
  | .finish => finish t p s l index
  | .move => move t s l index
  | .nothing => .quiet s

/-- The state with which a block is performed: it has a number, and its modes are in force. -/
def State.entering (s : State α) (l : Line α) : State α :=
  { s with block := s.block + 1, modal := s.modal.withModesOf l }

/-- Walk over one line. -/
def step (t : Tuning α) (p : Program α) (s : State α) (l : Line α) (index : Nat) : Outcome α :=
  if l.isEmpty then .quiet s
  else
    let s := s.entering l
    if s.started then perform t p s l index else start s l index

/-- The index of the line after a line with the given outcome; never this line or one before. -/
def Outcome.next (o : Outcome α) (index : Nat) : Nat :=
  Nat.max (o.resume.getD index) index + 1

theorem Outcome.lt_next {β : Type} (o : Outcome β) (index : Nat) : index < o.next index :=
  Nat.lt_succ_of_le (Nat.le_max_right _ _)

/-- One line on the way through a program. -/
structure Visit (α : Type) where
  /-- The index of the line. -/
  index : Nat
  /-- Its words. -/
  line : Line α
  /-- The state before it. -/
  before : State α
  /-- What it leads to. -/
  outcome : Outcome α
  deriving DecidableEq, Repr

/-- The lines walked over from the one with the given index on, in order. -/
def visitsFrom (t : Tuning α) (p : Program α) (s : State α) (index : Nat) : List (Visit α) :=
  if h : index < p.lines.size then
    let line := p.lines[index]
    let o := step t p s line index
    ⟨index, line, s, o⟩ :: visitsFrom t p o.state (o.next index)
  else []
termination_by p.lines.size - index
decreasing_by
  have := Outcome.lt_next (step t p s p.lines[index] index) index
  omega

/-- The lines walked over, in order. -/
def visits (t : Tuning α) (p : Program α) : List (Visit α) :=
  visitsFrom t p .initial 0

/-- The points of a program. -/
def points (t : Tuning α) (p : Program α) : List (Point α) :=
  (visits t p).flatMap fun v => v.outcome.points

end Walk

end Lathe
