import Lathe.Console.Arguments
import Lathe.Engine.Run
import Lathe.Playback.Message
import Lathe.Program.Message
import Lathe.Settings.File

/-!
# Carrying out a command line

The configuration comes from the file asked for, else from the standard place if there is a file,
else it is the standard one.  Then the templates are listed, or a program is loaded, the speed
and the stops are set, and the program is played to the end.
-/

namespace Lathe

namespace LoadError

/-- The message for the operator. -/
def message : LoadError Float → String
  | program e => e.message
  | template e => e.message
  | storage e => e.message

end LoadError

namespace Console

/-- Why a command line fails after its arguments have been read. -/
inductive Failure where
  /-- The configuration file cannot be used. -/
  | config (path : String) (error : ConfigError)
  /-- The program cannot be loaded, from a file if a path is given. -/
  | load (path : Option String) (error : LoadError Float)
  /-- The speed of the slider position is out of range. -/
  | speed (error : SpeedError Float)
  /-- There is no program to load. -/
  | noProgram

namespace Failure

/-- What was being done, for the operator. -/
def context : Failure → String
  | config path _ => "failed to load config " ++ path
  | load (some path) _ => "failed to load " ++ path
  | load none error => error.message
  | speed error => error.message
  | noProgram => "no program given"

end Failure

/-- What a command line comes to. -/
inductive Outcome where
  /-- The ids of the templates. -/
  | templates (ids : List String)
  /-- A program was played. -/
  | played (trace : Trace Float) (summary : RunSummary Float)

/-- Where the configuration file is below the configuration directory. -/
def configName : String := "turnkit/config.toml"

/-- The standard place of the configuration file. -/
def configPath (configDirectory : String) : String :=
  configDirectory ++ "/" ++ configName

/-- The configuration in force. -/
def configFor (a : Arguments) (s : Storage) (configDirectory : Option String) :
    Except Failure Config :=
  let failing (path : String) : Except ConfigError Config → Except Failure Config
    | .ok c => .ok c
    | .error e => .error (.config path e)
  match a.config, configDirectory with
  | some path, _ => failing path (Config.load s path)
  | none, some directory =>
    failing (configPath directory) (Config.loadOrStandard s (configPath directory))
  | none, none => .ok .standard

/-- Load the program that the arguments name. -/
def loadProgram (e : Engine Float) (a : Arguments) (s : Storage) :
    Except Failure (Engine Float) :=
  let loaded (path : Option String) :
      Engine Float × Option (LoadError Float) → Except Failure (Engine Float)
    | (e, none) => .ok e
    | (_, some error) => .error (.load path error)
  match a.program, a.template with
  | some path, _ => loaded (some path) (e.loadFile s path)
  | none, some id => loaded none (e.loadTemplate id)
  | none, none => .error .noProgram

/-- Set the speed that the arguments ask for. -/
def applySpeed (e : Engine Float) (a : Arguments) : Except Failure (Engine Float) :=
  match a.speed with
  | none => .ok e
  | some raw => match e.setSlider raw with
    | .ok (e, _) => .ok e
    | .error error => .error (.speed error)

/-- Raise the flags of playback; a flag that is not given leaves the configuration in force. -/
def applyFlags (e : Engine Float) (a : Arguments) : Engine Float :=
  { e with player := { e.player with
      singleBlock := e.player.singleBlock || a.singleBlock
      optionalStop := e.player.optionalStop || a.optionalStop } }

/-- Carry out arguments on the files at hand. -/
def carryOut (a : Arguments) (s : Storage) (configDirectory : Option String) :
    Except Failure Outcome := do
  let c ← configFor a s configDirectory
  if a.listTemplates then return .templates c.templates.ids
  let e ← loadProgram (.ofConfig c) a s
  let e ← applySpeed e a
  let e := applyFlags e a
  return .played e.player.trace (Session.new e).playThrough.2

end Console

end Lathe
