import Lathe.Program.Code
import Lathe.Scalar.Basic

/-!
# Points of a tool path

The tool moves in a plane.  `x` is a diameter and `z` runs along the axis, so distances halve the
difference in `x`: both axes are then measured in the same unit.

A `Point` is a place that the tool reaches, with what was going on there: the kind of move, the
program line and block it belongs to, the feed and an M code.
-/

namespace Lathe

/-- A place of the tool. -/
structure Position (α : Type) where
  /-- The diameter. -/
  x : α
  /-- The place along the axis. -/
  z : α
  deriving DecidableEq, Repr

namespace Position

variable {α : Type} [Scalar α]

/-- The origin. -/
def origin : Position α := ⟨0.0, 0.0⟩

/-- How far two places are apart, with diameters halved. -/
def distance (a b : Position α) : α :=
  let dx := (b.x - a.x) * 0.5
  let dz := b.z - a.z
  Scalar.sqrt (dx * dx + dz * dz)

/-- The largest difference of two coordinates that count as equal. -/
def tolerance : α := 1e-9

/-- Two places that count as one: a move between them is no move. -/
def isNear (a b : Position α) : Bool :=
  decide (Scalar.abs (b.x - a.x) ≤ tolerance) && decide (Scalar.abs (b.z - a.z) ≤ tolerance)

/-- The same place with both coordinates shifted. -/
def shift (a : Position α) (dx dz : α) : Position α :=
  ⟨a.x + dx, a.z + dz⟩

end Position

/-- How the tool reaches a point. -/
inductive Kind where
  /-- The place where the tool is first known. -/
  | start
  /-- Positioning, also the mark that an M code leaves. -/
  | rapid
  /-- A straight cut. -/
  | feed
  /-- A cut along an arc. -/
  | arc (rotation : Rotation)
  /-- A pass of a roughing cycle. -/
  | roughCut
  /-- A straight cut of a finishing cycle. -/
  | finishFeed
  /-- The outline that a roughing cycle leaves for finishing. -/
  | stockAllowance
  deriving DecidableEq, Repr

namespace Kind

/-- Every kind. -/
def all : List Kind :=
  [start, rapid, feed, arc .clockwise, arc .counterclockwise, roughCut, finishFeed, stockAllowance]

/-- The written name. -/
def name : Kind → String
  | start => "start"
  | rapid => "rapid"
  | feed => "feed"
  | arc .clockwise => "arc_cw"
  | arc .counterclockwise => "arc_ccw"
  | roughCut => "rough_cut"
  | finishFeed => "finish_feed"
  | stockAllowance => "stock_allowance"

/-- The kind with the given name. -/
def ofName? (s : String) : Option Kind :=
  all.find? fun k => k.name == s

/-- A cut along an arc. -/
def isArc : Kind → Bool
  | arc _ => true
  | _ => false

end Kind

/-- The kind of the points that a motion reaches. -/
def Motion.kind : Motion → Kind
  | rapid => .rapid
  | linear => .feed
  | arc r => .arc r

/-- A point of a tool path. -/
structure Point (α : Type) extends Position α where
  /-- How the tool reaches it. -/
  kind : Kind
  /-- The index of the program line that it comes from. -/
  line : Option Nat
  /-- The number of its block, in order of execution. -/
  block : Nat
  /-- The feed on the way to it. -/
  feed : α
  /-- The M code that it carries. -/
  aux : Option AuxCode
  deriving DecidableEq, Repr

namespace Point

variable {α : Type} [Scalar α]

/-- A point whose feed is raised to zero if it is below or not a number. -/
def make (p : Position α) (kind : Kind) (block : Nat) (feed : α) (line : Option Nat)
    (aux : Option AuxCode) : Point α where
  toPosition := p
  kind := kind
  line := line
  block := block
  feed := Scalar.max feed 0.0
  aux := aux

/-- How far two points are apart. -/
def distance (a b : Point α) : α :=
  a.toPosition.distance b.toPosition

/-- What the M code of the point means to playback. -/
def stop? (p : Point α) : Option Stop :=
  p.aux.bind AuxCode.stop?

end Point

end Lathe
