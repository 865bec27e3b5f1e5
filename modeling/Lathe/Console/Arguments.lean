/-!
# Command line arguments

`Arguments.parse` reads the words after the program's name.  A word that starts with a hyphen is
an option, in its long or its short form; the value of an option is attached to it or is the next
word, provided that this does not look like an option.  Two hyphens by themselves end the
options; other words are the program file, of which there is one.

An option with a value waits for it.  What waits is *settled* before the next option, before a
program file and at the end, and this is when it is checked: a value that is missing or given
twice, an empty path, a speed out of range.  Words that cannot be right whatever waits are refused
at once: an option that is not known, a flag with a value attached, a second program file.
-/

namespace Lathe

namespace Console

/-- Why the arguments are not carried out. -/
inductive UsageError where
  /-- There is nothing to play. -/
  | missing
  /-- An option that is not known, or a word too many. -/
  | unknown
  /-- An option lacks its value, or a path is empty. -/
  | invalidValue
  /-- The speed is not a number in range. -/
  | badSpeed
  /-- Something is given twice, or a program file beside a template. -/
  | conflict
  /-- A flag is given a value. -/
  | tooManyValues
  /-- Help is asked for. -/
  | help
  /-- The version is asked for. -/
  | version
  deriving DecidableEq, Repr

/-- The options with a value, and the program file. -/
inductive Slot where
  /-- The program file. -/
  | program
  /-- The template to play. -/
  | template
  /-- The configuration file. -/
  | config
  /-- The position of the speed slider. -/
  | speed
  deriving DecidableEq, Repr

/-- The options without a value. -/
inductive Flag where
  /-- Halt at the end of every block. -/
  | singleBlock
  /-- Halt at optional stops. -/
  | optionalStop
  /-- Print the ids of the templates. -/
  | listTemplates
  /-- Ask for help. -/
  | help
  /-- Ask for the version. -/
  | version
  deriving DecidableEq, Repr

/-- What the arguments ask for. -/
structure Arguments where
  /-- The program file. -/
  program : Option String
  /-- The template to play. -/
  template : Option String
  /-- The configuration file. -/
  config : Option String
  /-- The position of the speed slider. -/
  speed : Option Nat
  /-- Halt at the end of every block. -/
  singleBlock : Bool
  /-- Halt at optional stops. -/
  optionalStop : Bool
  /-- Print the ids of the templates. -/
  listTemplates : Bool
  deriving DecidableEq, Repr

namespace Arguments

/-- Nothing asked for. -/
def none : Arguments := ⟨.none, .none, .none, .none, false, false, false⟩

/-- The largest position of the speed slider. -/
def speedLimit : Int := 4294967295

/-- Read an integer: an optional sign and digits. -/
def integer? (s : String) : Option Int :=
  let value (cs : List Char) : Option Int :=
    if cs.isEmpty || !cs.all Char.isDigit then .none
    else some (cs.foldl (fun n c => 10 * n + (c.toNat - '0'.toNat)) 0 : Nat)
  match s.toList with
  | '-' :: cs => (value cs).map (- ·)
  | '+' :: cs => value cs
  | cs => value cs

/-- The slider position that a text gives. -/
def speedOf (s : String) : Except UsageError Nat :=
  match integer? s with
  | some n => if 1 ≤ n ∧ n ≤ speedLimit then .ok n.toNat else .error .badSpeed
  | .none => .error .badSpeed

/-- A path that is not empty. -/
def pathOf (s : String) : Except UsageError String :=
  if s.isEmpty then .error .invalidValue else .ok s

/-- Fill a place that is still free. -/
def once {β : Type} (old : Option β) (new : Except UsageError β) :
    Except UsageError (Option β) :=
  if old.isSome then .error .conflict else new.map some

/-- Put a value into its slot. -/
def put (a : Arguments) (slot : Slot) (v : String) : Except UsageError Arguments :=
  match slot with
  | .program => (once a.program (pathOf v)).map fun p => { a with program := p }
  | .template => (once a.template (.ok v)).map fun t => { a with template := t }
  | .config => (once a.config (pathOf v)).map fun c => { a with config := c }
  | .speed => (once a.speed (speedOf v)).map fun s => { a with speed := s }

/-- Raise a flag. -/
def raise (a : Arguments) : Flag → Except UsageError Arguments
  | .singleBlock =>
    if a.singleBlock then .error .conflict else .ok { a with singleBlock := true }
  | .optionalStop =>
    if a.optionalStop then .error .conflict else .ok { a with optionalStop := true }
  | .listTemplates =>
    if a.listTemplates then .error .conflict else .ok { a with listTemplates := true }
  | .help => .error .help
  | .version => .error .version

end Arguments

/-- An option: a slot to fill or a flag to raise. -/
inductive Switch where
  /-- Takes a value. -/
  | slot (s : Slot)
  /-- Takes none. -/
  | flag (f : Flag)
  deriving DecidableEq, Repr

namespace Switch

/-- The option with a long name. -/
def ofName? : String → Option Switch
  | "template" => some (slot .template)
  | "config" => some (slot .config)
  | "speed" => some (slot .speed)
  | "single-block" => some (flag .singleBlock)
  | "optional-stop" => some (flag .optionalStop)
  | "list-templates" => some (flag .listTemplates)
  | "help" => some (flag .help)
  | "version" => some (flag .version)
  | _ => none

/-- The option with a letter. -/
def ofLetter? : Char → Option Switch
  | 't' => some (slot .template)
  | 'c' => some (slot .config)
  | 's' => some (slot .speed)
  | 'h' => some (flag .help)
  | 'V' => some (flag .version)
  | _ => none

end Switch

/-- How far the arguments have been read. -/
structure Reading where
  /-- What has been settled. -/
  settled : Arguments
  /-- What waits: a slot with its value, if it has one by now. -/
  waiting : Option (Slot × Option String)
  /-- A program file has been seen. -/
  hasProgram : Bool
  /-- Options may still come. -/
  options : Bool
  deriving DecidableEq, Repr

namespace Reading

/-- Before the first word. -/
def start : Reading := ⟨.none, none, false, true⟩

/-- Settle what waits. -/
def settle (r : Reading) : Except UsageError Reading :=
  match r.waiting with
  | none => .ok r
  | some (_, none) => .error .invalidValue
  | some (slot, some v) =>
    (r.settled.put slot v).map fun a => { r with settled := a, waiting := none }

/-- Take an option, with the value attached to it, if there is one. -/
def take (r : Reading) (o : Switch) (attached : Option String) : Except UsageError Reading :=
  match o, attached with
  | .flag _, some _ => .error .tooManyValues
  | .flag f, none => do
    let r ← r.settle
    (r.settled.raise f).map fun a => { r with settled := a }
  | .slot slot, some v => do
    let r ← r.settle
    (r.settled.put slot v).map fun a => { r with settled := a }
  | .slot slot, none => do
    let r ← r.settle
    return { r with waiting := some (slot, none) }

/-- A long option: its name, and a value after an equals sign. -/
def takeLong (r : Reading) (body : List Char) : Except UsageError Reading :=
  let name := body.takeWhile (· ≠ '=')
  let attached := match body.dropWhile (· ≠ '=') with
    | [] => none
    | _ :: v => some (String.ofList v)
  match Switch.ofName? (String.ofList name) with
  | some o => r.take o attached
  | none => .error .unknown

/-- Short options in one word: flags, up to one with a value, to which the rest belongs. -/
def takeShort (r : Reading) : List Char → Except UsageError Reading
  | [] => .ok r
  | c :: cs =>
    match Switch.ofLetter? c with
    | none => .error .unknown
    | some (.flag f) =>
      match r.take (.flag f) none with
      | .ok r => takeShort r cs
      | .error e => .error e
    | some (.slot slot) =>
      match cs with
      | [] => r.take (.slot slot) none
      | '=' :: v => r.take (.slot slot) (some (String.ofList v))
      | v => r.take (.slot slot) (some (String.ofList v))

/-- A word that is no option: a value that is waited for, or the program file. -/
def takeWord (r : Reading) (word : String) : Except UsageError Reading :=
  match r.options, r.waiting with
  | true, some (slot, none) => .ok { r with waiting := some (slot, some word) }
  | _, _ =>
    -- there is room for one program file
    if r.hasProgram then .error .unknown
    else r.settle.map fun r =>
      { r with waiting := some (.program, some word), hasProgram := true }

/-- Take one word. -/
def step (r : Reading) (word : String) : Except UsageError Reading :=
  if r.options then
    match word.toList with
    | ['-', '-'] => .ok { r with options := false }
    | '-' :: '-' :: body => r.takeLong body
    | '-' :: c :: cs => r.takeShort (c :: cs)
    | _ => r.takeWord word
  else r.takeWord word

/-- Take all words. -/
def steps (r : Reading) : List String → Except UsageError Reading
  | [] => .ok r
  | word :: words =>
    match r.step word with
    | .ok r => steps r words
    | .error e => .error e

end Reading

namespace Arguments

/-- The arguments go together and ask for something. -/
def complete (a : Arguments) : Except UsageError Arguments :=
  if a.program.isSome && a.template.isSome then .error .conflict
  else if a.program.isSome || a.template.isSome || a.listTemplates then .ok a
  else .error .missing

/-- Read the words of a command line. -/
def parse (words : List String) : Except UsageError Arguments := do
  let r ← Reading.start.steps words
  let r ← r.settle
  r.settled.complete

end Arguments

end Console

end Lathe
