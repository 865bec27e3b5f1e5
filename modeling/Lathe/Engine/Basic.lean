import Lathe.Engine.Status
import Lathe.Motion.Subdivision
import Lathe.Playback.Host
import Lathe.Settings.Config
import Lathe.Storage.Basic

/-!
# The engine

An `Engine` holds one program and plays its trace.  Loading pauses playback first; a program that
cannot be read leaves the one before in place, paused.  A template or a file that is not there
changes nothing.
-/

namespace Lathe

/-- Why a program cannot be loaded. -/
inductive LoadError (α : Type) where
  /-- A line of it cannot be read. -/
  | program (error : ReadError α)
  /-- The library does not have it. -/
  | template (error : TemplateError)
  /-- The file cannot be read. -/
  | storage (error : StorageError)
  deriving DecidableEq, Repr

/-- One program with its playback. -/
structure Engine (α : Type) where
  /-- How programs are interpreted. -/
  tuning : Tuning α
  /-- The program templates. -/
  templates : Templates
  /-- The curve of the speed slider. -/
  curve : SpeedCurve α
  /-- The program as text. -/
  source : Source
  /-- The playback of its trace. -/
  player : Player α
  deriving DecidableEq, Repr

namespace Engine

variable {α : Type} [Scalar α]

/-- An engine without a program. -/
def new (tuning : Tuning α) (playback : PlaybackSettings α) (templates : Templates) : Engine α where
  tuning := tuning
  templates := templates
  curve := playback.curve
  source := .empty
  player := playback.player

variable (e : Engine α)

/-- Load a program from its text. -/
def loadText (text : String) : Engine α × Option (LoadError α) :=
  let paused := { e with player := e.player.pause }
  let source := Source.ofText text
  match source.trace e.tuning with
  | .ok trace => ({ paused with source := source, player := paused.player.load trace }, none)
  | .error error => (paused, some (.program error))

/-- Load a program from the library. -/
def loadTemplate (id : String) : Engine α × Option (LoadError α) :=
  match e.templates.get id with
  | .ok text => e.loadText text
  | .error error => (e, some (.template error))

/-- Load a program from a file. -/
def loadFile (storage : Storage) (path : String) : Engine α × Option (LoadError α) :=
  match storage.read path with
  | .ok text => e.loadText text
  | .error error => (e, some (.storage error))

/-- Change the speed; one that is not above zero and finite is refused. -/
def setSpeed (speed : α) : Except (SpeedError α) (Engine α) :=
  (e.player.setSpeed speed).map fun p => { e with player := p }

/-- Set the speed from a position of the slider; gives the speed. -/
def setSlider (raw : Nat) : Except (SpeedError α) (Engine α × α) :=
  let speed := e.curve.speedAt raw
  (e.setSpeed speed).map (·, speed)

/-- The status at the cursor; none without a trace. -/
def status? : Option (Status α) :=
  e.player.current?.map fun p => .ofPoint p e.source e.player.mode

end Engine

namespace LoadError

/-- The program itself is at fault. -/
def isProgram {α : Type} : LoadError α → Bool
  | program _ => true
  | template _ | storage _ => false

/-- The library is at fault. -/
def isTemplate {α : Type} : LoadError α → Bool
  | template _ => true
  | program _ | storage _ => false

end LoadError

namespace Engine

/-- An engine with a configuration in force. -/
def ofConfig (c : Config) : Engine Float :=
  .new c.tuning c.playback c.templates

end Engine

end Lathe
