import Lathe.Document.Json.Printer
import Lathe.Document.Json.Reader
import Lathe.Document.Toml.Printer
import Lathe.Document.Toml.Reader
import Lathe.Settings.Document
import Lathe.Storage.Basic

/-!
# Configuration files

The extension of a file says which format it has.  A configuration is checked after it has been
read and before it is written, so a file never gives one that is out of range.
-/

namespace Lathe

/-- The formats of configuration files. -/
inductive ConfigFormat where
  /-- Extension `json`. -/
  | json
  /-- Extension `toml`. -/
  | toml
  deriving DecidableEq, Repr

/-- Why a configuration cannot be loaded or saved. -/
inductive ConfigError where
  /-- A setting is out of range. -/
  | invalid (fault : ConfigFault)
  /-- The extension, if there is one, is of no format. -/
  | unsupported (extension : Option String)
  /-- The file cannot be read or written. -/
  | storage (error : StorageError)
  /-- The text is no configuration, or the configuration has no text in the format. -/
  | malformed (format : ConfigFormat)

namespace ConfigError

/-- The message for the operator; what is wrong with a text is not told. -/
def message : ConfigError → String
  | invalid fault => fault.message
  | unsupported extension => "Unsupported config format: " ++ extension.getD "<none>"
  | storage error => error.message
  | malformed _ => ""

end ConfigError

namespace ConfigFormat

/-- The format of a file. -/
def ofPath (path : String) : Except ConfigError ConfigFormat :=
  match Path.extension? path with
  | some "json" => .ok json
  | some "toml" => .ok toml
  | other => .error (.unsupported other)

/-- Read a configuration from its text.  Only the list form of a record tells the formats apart
here: TOML lets a list be longer than its record. -/
def read? (format : ConfigFormat) (text : String) : Option Config :=
  match format with
  | json => (Document.Json.read? text).bind (Config.ofValue? false)
  | toml => (Document.Toml.read? text).bind (Config.ofValue? true)

/-- The text of a configuration. -/
def print? (format : ConfigFormat) (c : Config) : Option String :=
  match format with
  | json => some (Document.Json.pretty c.toValue)
  | toml => Document.Toml.print? c.toValue

end ConfigFormat

namespace Config

/-- The configuration itself if nothing is wrong with it. -/
def checked (c : Config) : Except ConfigError Config :=
  match c.fault? with
  | some fault => .error (.invalid fault)
  | none => .ok c

/-- The value of an optional result, or an error. -/
def orElse {β : Type} (e : ConfigError) : Option β → Except ConfigError β
  | some b => .ok b
  | none => .error e

/-- The result of a file operation. -/
def ofStorage {β : Type} : Except StorageError β → Except ConfigError β
  | .ok b => .ok b
  | .error e => .error (.storage e)

/-- Load a configuration from a file. -/
def load (s : Storage) (path : String) : Except ConfigError Config := do
  let format ← ConfigFormat.ofPath path
  let text ← ofStorage (s.read path)
  let c ← orElse (.malformed format) (format.read? text)
  c.checked

/-- Load a configuration from a file if there is one, else take the standard one. -/
def loadOrStandard (s : Storage) (path : String) : Except ConfigError Config :=
  if s.has path then load s path else .ok standard

/-- Save a configuration to a file. -/
def save (c : Config) (s : Storage) (path : String) : Except ConfigError Storage := do
  -- a setting out of range keeps the file from being written
  let c ← c.checked
  let format ← ConfigFormat.ofPath path
  let text ← orElse (.malformed format) (format.print? c)
  ofStorage (s.write path text)

end Config

end Lathe
