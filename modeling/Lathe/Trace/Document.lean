import Lathe.Document.Decode
import Lathe.Scalar.Binary64
import Lathe.Trace.Basic

/-!
# Traces as documents

A trace is kept with every field of every point as it is.  In a table the program line and the M
code of a point may be missing; all other fields have to be there.
-/

namespace Lathe

open Document (Value Schema Field)

namespace Kind

/-- Read a kind: its name, alone or as the only name of a table that gives it nothing. -/
def ofValue? : Value → Option Kind
  | .text s => ofName? s
  | .table [(s, .null)] => ofName? s
  | _ => none

end Kind

namespace Point

/-- A point before its fields are read. -/
def blank : Point Float := .make .origin .start 0 0.0 none none

/-- How a point is read. -/
def schema : Schema (Point Float) where
  fields :=
    [.required "x" Value.real? fun p v => { p with x := v },
     .required "z" Value.real? fun p v => { p with z := v },
     .required "kind" Kind.ofValue? fun p v => { p with kind := v },
     .of "source_line" (Value.optional? (Value.nat? Value.limit64)) fun p v =>
       { p with line := v },
     .required "block" (Value.nat? Value.limit32) fun p v => { p with block := v },
     .required "feed_rate" Value.real? fun p v => { p with feed := v },
     .of "aux_code" (Value.optional? (Value.nat? Value.limit16)) fun p v =>
       { p with aux := v.map AuxCode.mk }]
  start := blank
  shortLists := false

/-- A number or nothing. -/
def optionalNat : Option Nat → Value
  | some n => .int n
  | none => .null

/-- The point as a document. -/
def toValue (p : Point Float) : Value :=
  .table
    [("x", .real p.x), ("z", .real p.z), ("kind", .text p.kind.name),
     ("source_line", optionalNat p.line), ("block", .int p.block), ("feed_rate", .real p.feed),
     ("aux_code", optionalNat (p.aux.map AuxCode.number))]

end Point

namespace Trace

/-- Read the points of a trace. -/
def pointsOf? : Value → Option (List (Point Float))
  | .list items => items.mapM (Point.schema.read false)
  | _ => none

/-- How a trace is read. -/
def schema : Schema (Trace Float) where
  fields := [.required "segments" pointsOf? fun _ v => .ofList v]
  start := .empty
  shortLists := false

/-- Read a trace. -/
def ofValue? (v : Value) : Option (Trace Float) := schema.read false v

/-- The trace as a document. -/
def toValue (t : Trace Float) : Value :=
  .table [("segments", .list (t.points.toList.map Point.toValue))]

end Trace

end Lathe
