import Lathe.Motion.Contour

/-!
# Roughing cycles

G71 takes material off in passes along the axis, from the stock inwards, and leaves the finishing
allowance on the contour.  Pass `i` cuts at the stock diameter less `i` steps, but not below the
finished diameter, and runs to where the contour (shifted by the allowance) is met: `depthAt`
interpolates the first segment of the contour that brackets the diameter.  A pass that would stop
at the face gives no points but has a block of its own all the same.

After the passes come a rapid to the finished diameter with the outline of the allowance in one
block, and the return to the start in another.

A cycle goes on counting blocks from the one of its line.  `expand` numbers them without a limit;
`Expansion.counted?` goes through the numbers with a counter of 32 bits, for this cycle and for the
finishing cycle alike, and `expand?` is the expansion that comes of it.
-/

namespace Lathe

/-- What a cycle takes where the program says nothing, and its tolerances. -/
structure CycleSettings (α : Type) where
  /-- The radial depth of a pass. -/
  depth : α
  /-- How far the tool retracts. -/
  retract : α
  /-- The feed of passes. -/
  roughFeed : α
  /-- Passes that stop this near to the face are left out. -/
  faceTolerance : α
  /-- Segments of the contour whose diameters differ no more than this are not interpolated. -/
  interpolationTolerance : α
  deriving DecidableEq, Repr

namespace CycleSettings

/-- The settings in force unless changed. -/
def standard {α : Type} [Scalar α] : CycleSettings α where
  depth := 2.0
  retract := 0.5
  roughFeed := 0.3
  faceTolerance := 0.001
  interpolationTolerance := 0.001

end CycleSettings

/-- The points of an expanded cycle and the number of its last block. -/
structure Expansion (α : Type) where
  /-- The points, in order. -/
  points : List (Point α)
  /-- The last block number in use. -/
  lastBlock : Nat
  deriving DecidableEq, Repr

/-- What the line of a cycle stamps on the points of its expansion. -/
structure CycleLine where
  /-- The block of the line itself. -/
  block : Nat
  /-- The index of the line. -/
  line : Nat
  /-- Its M code. -/
  aux : Option AuxCode
  deriving DecidableEq, Repr

/-- The largest number of a block, `2 ^ 32 - 1`: the counter of blocks has 32 bits. -/
def counterLimit : Nat := 4294967295

/-- The number of the next block; none if the counter cannot go on. -/
def nextBlock? (block : Nat) : Option Nat :=
  if block < counterLimit then some (block + 1) else none

/-- The number that the counter comes to from a block over so many more; none if it cannot. -/
def countOn? (block : Nat) : Nat → Option Nat
  | 0 => some block
  | n + 1 =>
    match nextBlock? block with
    | none => none
    | some next => countOn? next n

/-- The expansion with its blocks counted, one after the other from that of the cycle's line on;
none if the counter does not come to the last one. -/
def Expansion.counted? {α : Type} (e : Expansion α) (stamp : CycleLine) : Option (Expansion α) :=
  (countOn? stamp.block (e.lastBlock - stamp.block)).map fun last => { e with lastBlock := last }

/-- The depth of cut and the retraction of a roughing cycle. -/
structure CutParameters (α : Type) where
  /-- The radial depth of a pass. -/
  depth : α
  /-- How far the tool retracts. -/
  retract : α
  deriving DecidableEq, Repr

/-- A roughing cycle. -/
structure Roughing (α : Type) where
  /-- Where the tool is before the cycle; its diameter is that of the stock. -/
  start : Position α
  /-- Depth of cut and retraction. -/
  cut : CutParameters α
  /-- The finishing allowance on the diameter; its sign does not matter. -/
  allowanceX : α
  /-- The finishing allowance along the axis; its sign does not matter. -/
  allowanceZ : α
  /-- The feed of passes. -/
  feed : α
  deriving DecidableEq, Repr

namespace Roughing

variable {α : Type} [Scalar α]

/-- The largest number of passes that is counted. -/
def passLimit : Nat := 4294967295

/-- The number of passes between two diameters: enough steps of twice the depth, and at least
one. -/
def passesBetween (stock finish depth : α) : Nat :=
  let ratio := (stock - finish) / (2.0 * depth)
  if Scalar.isFinite ratio then Nat.max 1 (Nat.min passLimit (Scalar.ceil ratio)) else 1

variable (c : Roughing α)

/-- The smallest diameter of a contour. -/
def smallest (contour : List (ContourPoint α)) : α :=
  Scalar.least (contour.map fun p => p.x)

/-- The deepest place of a contour along the axis. -/
def deepest (contour : List (ContourPoint α)) : α :=
  Scalar.least (contour.map fun p => p.z)

/-- The diameter that is left for finishing: the smallest of the contour with the allowance. -/
def finishDiameter (contour : List (ContourPoint α)) : α :=
  smallest contour + Scalar.abs c.allowanceX

/-- The number of passes for a contour. -/
def passCount (contour : List (ContourPoint α)) : Nat :=
  passesBetween c.start.x (c.finishDiameter contour) c.cut.depth

/-- Where a segment of the contour has the given diameter, if it brackets it and is steep enough
to tell. -/
def crossing? (tolerance target : α) (a b : ContourPoint α) : Option α :=
  if (a.x - target) * (b.x - target) ≤ 0.0 ∧ tolerance < Scalar.abs (b.x - a.x) then
    some (a.z + (target - a.x) / (b.x - a.x) * (b.z - a.z))
  else none

/-- The segments of a contour, each as its two ends. -/
def segments (contour : List (ContourPoint α)) : List (ContourPoint α × ContourPoint α) :=
  contour.zip contour.tail

/-- Where the first segment that has the given diameter has it. -/
def firstCrossing? (tolerance target : α) (contour : List (ContourPoint α)) : Option α :=
  (segments contour).findSome? fun (a, b) => crossing? tolerance target a b

/-- How far the contour leaves room at a diameter.  Where no segment tells, this is the deepest
place if the diameter is not above the smallest one, and the face otherwise. -/
def depthAt (tolerance : α) (contour : List (ContourPoint α)) (faceZ target : α) : α :=
  match firstCrossing? tolerance target contour with
  | some z => z
  | none => if target ≤ smallest contour then deepest contour else faceZ

/-- Where a pass at a diameter ends. -/
def stop (s : CycleSettings α) (contour : List (ContourPoint α)) (diameter : α) : α :=
  match contour with
  | [] => c.start.z
  | first :: _ =>
    depthAt s.interpolationTolerance contour first.z (diameter - Scalar.abs c.allowanceX) +
      Scalar.abs c.allowanceZ

/-- The diameter of a pass, counted from one. -/
def passDiameter (contour : List (ContourPoint α)) (pass : Nat) : α :=
  Scalar.max (c.start.x - Scalar.ofNat pass * (2.0 * c.cut.depth)) (c.finishDiameter contour)

/-- The six points of a pass at a diameter that stops at the given place: approach, position,
plunge, cut, retract, return. -/
def passPoints (stamp : CycleLine) (block : Nat) (diameter stop : α) : List (Point α) :=
  let clearance := 2.0 * c.cut.retract
  let z := c.start.z
  let point (x z : α) (kind : Kind) (feed : α) : Point α :=
    .make ⟨x, z⟩ kind block feed (some stamp.line) stamp.aux
  [point (c.start.x + clearance) z .rapid 0.0,
   point (diameter + clearance) z .rapid 0.0,
   point diameter z .rapid 0.0,
   point diameter stop .roughCut c.feed,
   point (diameter + clearance) (stop + c.cut.retract) .rapid 0.0,
   point (diameter + clearance) z .rapid 0.0]

/-- The points of a pass, none if it would stop at the face. -/
def pass (s : CycleSettings α) (contour : List (ContourPoint α)) (faceZ : α) (stamp : CycleLine)
    (i : Nat) : List (Point α) :=
  let diameter := c.passDiameter contour i
  let stop := c.stop s contour diameter
  -- at the face there is nothing to cut
  if faceZ - s.faceTolerance ≤ stop then []
  else c.passPoints stamp (stamp.block + i) diameter stop

/-- The outline of the allowance, after a rapid to the finished diameter. -/
def outline (contour : List (ContourPoint α)) (stamp : CycleLine) (block : Nat) : List (Point α) :=
  let point (p : Position α) (kind : Kind) : Point α :=
    .make p kind block 0.0 (some stamp.line) stamp.aux
  point ⟨c.finishDiameter contour, c.start.z⟩ .rapid ::
    contour.map fun p =>
      point (p.toPosition.shift (Scalar.abs c.allowanceX) (Scalar.abs c.allowanceZ))
        .stockAllowance

/-- All points of the cycle, in blocks that are numbered without a limit; an empty contour gives
none. -/
def expand (s : CycleSettings α) (contour : List (ContourPoint α)) (stamp : CycleLine) :
    Expansion α :=
  match contour with
  | [] => ⟨[], stamp.block⟩
  | first :: _ =>
    let n := c.passCount contour
    let passes := (List.range' 1 n).flatMap (c.pass s contour first.z stamp)
    let home : Point α :=
      .make c.start .rapid (stamp.block + n + 2) 0.0 (some stamp.line) stamp.aux
    ⟨passes ++ c.outline contour stamp (stamp.block + n + 1) ++ [home], stamp.block + n + 2⟩

/-- All points of the cycle, in counted blocks; none if the counter does not come to the last
one. -/
def expand? (s : CycleSettings α) (contour : List (ContourPoint α)) (stamp : CycleLine) :
    Option (Expansion α) :=
  (c.expand s contour stamp).counted? stamp

end Roughing

end Lathe
