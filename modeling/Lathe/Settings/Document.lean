import Lathe.Document.Decode
import Lathe.Settings.Config

/-!
# Configurations as documents

The names under which settings are kept, and their order.  Every setting may be missing and then
has its standard value.  Templates are put into the built-in library, so a document only needs
those that it adds or replaces.
-/

namespace Lathe

open Document (Value Schema Field)

namespace ArcSettings

/-- How the arc settings are read. -/
def schema : Schema (ArcSettings Float) where
  fields :=
    [.of "min_points" Value.word64? fun s v => { s with minPoints := v },
     .of "max_angle_step" Value.real? fun s v => { s with maxAngleStep := v },
     .of "min_chord" Value.real? fun s v => { s with minChord := v },
     .of "min_radius" Value.real? fun s v => { s with minRadius := v },
     .of "radius_tolerance" Value.real? fun s v => { s with radiusTolerance := v }]
  start := .standard
  shortLists := true

/-- The settings as a document. -/
def toValue (s : ArcSettings Float) : Value :=
  .table
    [("min_points", .int s.minPoints.toNat), ("max_angle_step", .real s.maxAngleStep),
     ("min_chord", .real s.minChord), ("min_radius", .real s.minRadius),
     ("radius_tolerance", .real s.radiusTolerance)]

end ArcSettings

namespace CycleSettings

/-- How the cycle settings are read. -/
def schema : Schema (CycleSettings Float) where
  fields :=
    [.of "default_depth_of_cut" Value.real? fun s v => { s with depth := v },
     .of "default_retract" Value.real? fun s v => { s with retract := v },
     .of "default_rough_feed" Value.real? fun s v => { s with roughFeed := v },
     .of "face_tolerance" Value.real? fun s v => { s with faceTolerance := v },
     .of "interpolation_tolerance" Value.real? fun s v => { s with interpolationTolerance := v }]
  start := .standard
  shortLists := true

/-- The settings as a document. -/
def toValue (s : CycleSettings Float) : Value :=
  .table
    [("default_depth_of_cut", .real s.depth), ("default_retract", .real s.retract),
     ("default_rough_feed", .real s.roughFeed), ("face_tolerance", .real s.faceTolerance),
     ("interpolation_tolerance", .real s.interpolationTolerance)]

end CycleSettings

namespace Tuning

/-- How the tuning is read; `longLists` as in `Schema.read`. -/
def schema (longLists : Bool) : Schema (Tuning Float) where
  fields :=
    [.of "max_segment_length" Value.real? fun s v => { s with maxStep := v },
     .of "arc" (ArcSettings.schema.read longLists) fun s v => { s with arc := v },
     .of "cycle" (CycleSettings.schema.read longLists) fun s v => { s with cycle := v }]
  start := .standard
  shortLists := true

/-- The tuning as a document. -/
def toValue (t : Tuning Float) : Value :=
  .table
    [("max_segment_length", .real t.maxStep), ("arc", t.arc.toValue), ("cycle", t.cycle.toValue)]

end Tuning

namespace SpeedCurve

/-- How the speed curve is read. -/
def schema : Schema (SpeedCurve Float) where
  fields :=
    [.of "base" Value.real? fun s v => { s with base := v },
     .of "raw_max" Value.word32? fun s v => { s with rawMax := v },
     .of "normalization" Value.real? fun s v => { s with normalization := v },
     .of "default_raw" Value.word32? fun s v => { s with defaultRaw := v }]
  start := .standard
  shortLists := true

/-- The speed curve as a document. -/
def toValue (c : SpeedCurve Float) : Value :=
  .table
    [("base", .real c.base), ("raw_max", .int c.rawMax.toNat),
     ("normalization", .real c.normalization), ("default_raw", .int c.defaultRaw.toNat)]

end SpeedCurve

namespace PlaybackSettings

/-- How the settings of playback are read; `longLists` as in `Schema.read`. -/
def schema (longLists : Bool) : Schema (PlaybackSettings Float) where
  fields :=
    [.of "base_step_distance" Value.real? fun s v => { s with baseStep := v },
     .of "tick_interval_ms" Value.word64? fun s v => { s with tickInterval := v },
     .of "single_block" Value.bool? fun s v => { s with singleBlock := v },
     .of "optional_stop" Value.bool? fun s v => { s with optionalStop := v },
     .of "speed_curve" (SpeedCurve.schema.read longLists) fun s v => { s with curve := v }]
  start := .standard
  shortLists := true

/-- The settings of playback as a document. -/
def toValue (s : PlaybackSettings Float) : Value :=
  .table
    [("base_step_distance", .real s.baseStep), ("tick_interval_ms", .int s.tickInterval.toNat),
     ("single_block", .bool s.singleBlock), ("optional_stop", .bool s.optionalStop),
     ("speed_curve", s.curve.toValue)]

end PlaybackSettings

namespace Templates

/-- A program text with its id. -/
def entryOf? : String × Value → Option (String × String)
  | (id, v) => v.text?.map (id, ·)

/-- Read templates into the built-in library. -/
def ofValue? (v : Value) : Option Templates := do
  let entries ← v.entries?
  let stored ← entries.mapM entryOf?
  (builtin.insertAll stored).toOption

/-- The templates as a document. -/
def toValue (t : Templates) : Value :=
  .table (t.entries.map fun (id, text) => (id, .text text))

end Templates

namespace Config

/-- How a configuration is read; `longLists` as in `Schema.read`. -/
def schema (longLists : Bool) : Schema Config where
  fields :=
    [.of "interpreter" ((Tuning.schema longLists).read longLists) fun s v =>
       { s with tuning := v },
     .of "playback" ((PlaybackSettings.schema longLists).read longLists) fun s v =>
       { s with playback := v },
     .of "templates" Templates.ofValue? fun s v => { s with templates := v }]
  start := .standard
  shortLists := true

/-- Read a configuration; `longLists` as in `Schema.read`. -/
def ofValue? (longLists : Bool) (v : Value) : Option Config :=
  (schema longLists).read longLists v

/-- The configuration as a document. -/
def toValue (c : Config) : Value :=
  .table
    [("interpreter", c.tuning.toValue), ("playback", c.playback.toValue),
     ("templates", c.templates.toValue)]

end Config

end Lathe
