import Lathe.Decimal.Notation
import Lathe.Scalar.Binary64
import Lathe.Settings.Playback
import Lathe.Settings.Templates
import Lathe.Settings.Tuning

/-!
# The configuration

Everything that can be set, and the messages about settings that are out of range.
-/

namespace Lathe

/-- Everything that can be set. -/
structure Config where
  /-- How programs are interpreted. -/
  tuning : Tuning Float
  /-- How playback starts out. -/
  playback : PlaybackSettings Float
  /-- The program templates. -/
  templates : Templates

/-- What is wrong with a configuration. -/
inductive ConfigFault where
  /-- The tuning has a fault. -/
  | tuning (fault : TuningFault Float)
  /-- The settings of playback have a fault. -/
  | playback (fault : PlaybackFault)

namespace TuningFault

/-- What the fault is, in words. -/
def reason : TuningFault Float → String
  | maxStep v => "max_segment_length must be positive, got " ++ Decimal.plain.write v
  | minPoints => "arc.min_points must be at least 1"
  | maxAngleStep => "arc.max_angle_step must be positive"
  | depth => "cycle.default_depth_of_cut must be positive"
  | negativeCycle => "cycle defaults must not be negative"

end TuningFault

namespace ConfigFault

/-- The setting that is out of range. -/
def key : ConfigFault → String
  | tuning _ => "interpreter"
  | playback .baseStep => "playback.base_step_distance"
  | playback .tickInterval => "playback.tick_interval_ms"
  | playback (.curve .base) => "speed_curve.base"
  | playback (.curve .rawMax) => "speed_curve.raw_max"
  | playback (.curve .normalization) => "speed_curve.normalization"
  | playback (.curve (.defaultRaw _)) => "speed_curve.default_raw"

/-- What is asked of the setting. -/
def reason : ConfigFault → String
  | tuning fault => fault.reason
  | playback .baseStep => "must be positive"
  | playback .tickInterval => "must be > 0"
  | playback (.curve .base) => "must be at least 1"
  | playback (.curve .rawMax) => "must be at least 2"
  | playback (.curve .normalization) => "must be positive"
  | playback (.curve (.defaultRaw n)) => "must be within 1..=" ++ Decimal.natText n.toNat

/-- The message for the operator. -/
def message (f : ConfigFault) : String :=
  "Invalid setting '" ++ f.key ++ "': " ++ f.reason

end ConfigFault

namespace Config

/-- The configuration in force unless changed. -/
def standard : Config := ⟨.standard, .standard, .builtin⟩

/-- The first fault of a configuration, if it has one. -/
def fault? (c : Config) : Option ConfigFault :=
  match c.tuning.fault? with
  | some f => some (.tuning f)
  | none => c.playback.fault?.map .playback

end Config

end Lathe
