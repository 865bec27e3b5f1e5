/-!
# Machine codes

The preparatory codes G0 to G3 select how the tool moves, and the miniature language of M codes
tells the machine to do something else.  Playback knows three meanings of an M code: M0 stops
the program, M1 stops it if the operator asks for optional stops, and M2 or M30 ends it.
-/

namespace Lathe

/-- The direction of travel around the centre of an arc. -/
inductive Rotation where
  /-- With the clock, G2. -/
  | clockwise
  /-- Against the clock, G3. -/
  | counterclockwise
  deriving DecidableEq, Repr

/-- How the tool moves. -/
inductive Motion where
  /-- Positioning without a cut, G0. -/
  | rapid
  /-- A straight cut, G1. -/
  | linear
  /-- A cut along an arc, G2 or G3. -/
  | arc (rotation : Rotation)
  deriving DecidableEq, Repr

namespace Motion

/-- The motion that a G code selects, if it does. -/
def ofCode? : Nat → Option Motion
  | 0 => some rapid
  | 1 => some linear
  | 2 => some (arc .clockwise)
  | 3 => some (arc .counterclockwise)
  | _ => none

/-- The G code of a motion. -/
def code : Motion → Nat
  | rapid => 0
  | linear => 1
  | arc .clockwise => 2
  | arc .counterclockwise => 3

/-- The direction of an arc. -/
def rotation? : Motion → Option Rotation
  | arc r => some r
  | rapid | linear => none

theorem ofCode?_eq_some_iff {n : Nat} {m : Motion} : ofCode? n = some m ↔ n = m.code := by
  constructor
  · intro h
    unfold ofCode? at h
    split at h <;> simp_all [code]
    all_goals subst h; rfl
  · rintro rfl
    rcases m with _ | _ | r
    · rfl
    · rfl
    · cases r <;> rfl

end Motion

/-- What an M code means to playback. -/
inductive Stop where
  /-- Stop always. -/
  | program
  /-- Stop if optional stops are on. -/
  | optional
  /-- The end of the program. -/
  | finish
  deriving DecidableEq, Repr

/-- An M code. -/
structure AuxCode where
  /-- The number after the letter. -/
  number : Nat
  deriving DecidableEq, Repr

namespace AuxCode

/-- The largest number of an M code. -/
def limit : Nat := 65535

/-- What the code means to playback, if anything. -/
def stop? (c : AuxCode) : Option Stop :=
  match c.number with
  | 0 => some .program
  | 1 => some .optional
  | 2 | 30 => some .finish
  | _ => none

end AuxCode

end Lathe
