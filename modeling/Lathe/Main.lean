import Lathe.Console.Command

/-!
# The command line program

Reads the files that the arguments name, carries the arguments out, and prints what they come to.
-/

namespace Lathe

namespace Console

/-- What is printed for help. -/
def helpText : String :=
  "\n".intercalate
    ["Play a lathe G-code program and print where playback halts", "",
     "Usage: lathe [OPTIONS] <PROGRAM|--template <ID>|--list-templates>", "",
     "Arguments:",
     "  [PROGRAM]  Program file to play", "",
     "Options:",
     "  -t, --template <ID>   Play a program from the template library",
     "  -c, --config <PATH>   Config file (.toml or .json)",
     "  -s, --speed <SPEED>   Speed slider position, clamped to the configured curve",
     "      --single-block    Halt at the end of every block",
     "      --optional-stop   Honour M1",
     "      --list-templates  Print template ids and exit",
     "  -h, --help            Print help",
     "  -V, --version         Print version"]

/-- What is printed for the version. -/
def versionText : String := "lathe 0.1.0"

/-- The cause of a failure, where the context does not tell it. -/
def Failure.cause? : Failure → Option String
  | config _ error => some error.message
  | load (some _) error => some error.message
  | load none _ | speed _ | noProgram => none

/-- What is printed about a failure. -/
def Failure.lines (f : Failure) : List String :=
  match f.cause? with
  | some cause => ["Error: " ++ f.context, "", "Caused by:", "    " ++ cause]
  | none => ["Error: " ++ f.context]

/-- The configuration directory of the system, if it has one. -/
def configDirectory? : IO (Option String) := do
  match ← IO.getEnv "XDG_CONFIG_HOME" with
  | some directory => if directory.startsWith "/" then return some directory
  | none => pure ()
  return (← IO.getEnv "HOME").map (· ++ "/.config")

/-- A file with its text, if it can be read. -/
def fileAt (path : String) : IO (List (String × String)) := do
  try
    let text ← IO.FS.readFile path
    return [(path, text)]
  catch _ => return []

end Console

end Lathe

open Lathe Console in
/-- Carry out a command line; the exit code tells a failure from a refusal of the arguments. -/
def main (words : List String) : IO UInt32 := do
  match Arguments.parse words with
  | .error .help => IO.println helpText; return 0
  | .error .version => IO.println versionText; return 0
  | .error _ =>
    IO.eprintln helpText
    return 2
  | .ok a =>
    let directory ← configDirectory?
    let paths := [a.program, a.config, directory.map configPath].filterMap id
    let files ← paths.mapM fileAt
    match carryOut a (.ofFiles files.flatten) directory with
    | .error failure =>
      for line in failure.lines do IO.eprintln line
      return 1
    | .ok (.templates ids) =>
      for id in ids do IO.println id
      return 0
    | .ok (.played _ summary) =>
      for line in summary.lines do IO.println line
      return 0
