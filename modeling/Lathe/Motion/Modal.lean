import Lathe.Motion.Roughing
import Lathe.Program.Line

/-!
# Modal state

What a line does not say is taken from the lines before it: the place of the tool, the motion,
the feed, and the cut parameters that a G71 line without a body announces for the next one with
a body.
-/

namespace Lathe

/-- What stays in force from line to line. -/
structure Modal (α : Type) where
  /-- Where the tool is. -/
  position : Position α
  /-- The motion in force. -/
  motion : Motion
  /-- The feed in force. -/
  feed : α
  /-- Cut parameters for the next roughing cycle. -/
  pending : Option (CutParameters α)
  deriving DecidableEq, Repr

/-- A feed below zero. -/
inductive FeedError where
  /-- The feed would be negative. -/
  | negative
  deriving DecidableEq, Repr

/-- The message about a feed that is refused. -/
def FeedError.message : FeedError → String
  | negative => "Feed rate cannot be negative"

namespace Modal

variable {α : Type} [Scalar α]

/-- At the origin in rapid motion, without feed. -/
def initial : Modal α := ⟨.origin, .rapid, 0.0, none⟩

variable (m : Modal α)

/-- Put another feed in force; one below zero is refused. -/
def setFeed (feed : α) : Except FeedError (Modal α) :=
  if feed < 0.0 then .error .negative else .ok { m with feed := feed }

/-- The state with the feed of a line in force; a feed that is refused changes nothing. -/
def withFeedOf (l : Line α) : Modal α :=
  match l.value? .f with
  | none => m
  | some feed => match m.setFeed feed with
    | .ok m' => m'
    | .error _ => m

/-- The state with the motion of a line in force. -/
def withMotionOf (l : Line α) : Modal α :=
  match l.motion? with
  | none => m
  | some motion => { m with motion := motion }

/-- The state with the feed and the motion of a line in force. -/
def withModesOf (l : Line α) : Modal α :=
  (m.withFeedOf l).withMotionOf l

/-- Where a line leads: coordinates that it does not give stay. -/
def target (l : Line α) : Position α :=
  ⟨(l.value? .x).getD m.position.x, (l.value? .z).getD m.position.z⟩

end Modal

end Lathe
