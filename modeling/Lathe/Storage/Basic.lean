import Lathe.Storage.Path

/-!
# Files

A `Storage` holds text files and directories.  Each has a *place*: the names that lead to it from
the working directory, with two dots for every level above that, or from the root, whose name is a
slash.  A directory is there if it has been made or if a file is in it; those that lead up from
the working directory are always there.

Looking up a path goes through its names one by one (`Storage.follow`), so it can fail because a
name is missing or because a file is used as a directory.  Writing goes the same way and makes
the directories that are missing.
-/

namespace Lathe

/-- The names that lead to a file or a directory. -/
abbrev Place := List String

/-- Text files in directories. -/
structure Storage where
  /-- Each file by its place, with its text. -/
  files : List (Place × String)
  /-- Directories that have been made. -/
  directories : List Place
  deriving DecidableEq, Repr

/-- Why a file cannot be read or written. -/
inductive StorageError where
  /-- There is nothing under the path. -/
  | notFound
  /-- A file stands where a directory is to be made. -/
  | alreadyExists
  /-- A file is used as a directory. -/
  | notDirectory
  /-- The path leads to a directory. -/
  | isDirectory
  /-- The path or a name in it is too long. -/
  | nameTooLong
  /-- The path holds a character that no name has. -/
  | badCharacter
  deriving DecidableEq, Repr

namespace StorageError

/-- What the system says. -/
def reason : StorageError → String
  | notFound => "No such file or directory (os error 2)"
  | alreadyExists => "File exists (os error 17)"
  | notDirectory => "Not a directory (os error 20)"
  | isDirectory => "Is a directory (os error 21)"
  | nameTooLong => "File name too long (os error 36)"
  | badCharacter => "file name contained an unexpected NUL byte"

/-- The message for the operator. -/
def message (e : StorageError) : String :=
  "I/O error: " ++ e.reason

end StorageError

namespace Place

/-- The name of the root. -/
def root : String := "/"

/-- The directory that a path starts from. -/
def origin (path : String) : Place :=
  if path.toList.head? = some '/' then [root] else []

/-- The directory above; the root is above itself. -/
def above (place : Place) : Place :=
  if place = [root] then place
  else if place.all (· = "..") then place ++ [".."]
  else place.dropLast

end Place

namespace Storage

/-- The longest name, in bytes. -/
def nameLimit : Nat := 255

/-- The longest path, in bytes. -/
def pathLimit : Nat := 4095

/-- No files. -/
def empty : Storage := ⟨[], []⟩

/-- What is found under a path. -/
inductive Found where
  /-- A directory at a place. -/
  | directory (place : Place)
  /-- A file with its text. -/
  | file (text : String)
  deriving DecidableEq, Repr

variable (s : Storage)

/-! ### Looking up -/

/-- A directory is there if it has been made or something is in it. -/
def hasDirectory (place : Place) : Bool :=
  s.directories.any (place.isPrefixOf ·) || s.files.any fun (file, _) => place.isPrefixOf file

/-- What a name leads to inside a directory. -/
def enter (place : Place) (name : String) : Except StorageError Found :=
  let target := place ++ [name]
  if nameLimit < name.utf8ByteSize then .error .nameTooLong
  else match s.files.lookup target with
    | some text => .ok (.file text)
    | none => if s.hasDirectory target then .ok (.directory target) else .error .notFound

/-- One name further. -/
def follow (found : Found) (name : String) : Except StorageError Found :=
  match found with
  | .file _ => .error .notDirectory
  | .directory place =>
    if Path.isIdle name then .ok found
    else if name = ".." then .ok (.directory (Place.above place))
    else s.enter place name

/-- Follow names one after another. -/
def followAll (found : Found) : List String → Except StorageError Found
  | [] => .ok found
  | name :: names =>
    match s.follow found name with
    | .ok found => followAll found names
    | .error e => .error e

/-- A path that may name something is neither empty nor too long and has no bad character. -/
def checkPath (path : String) : Except StorageError Unit :=
  if path.toList.contains '\x00' then .error .badCharacter
  else if path = "" then .error .notFound
  else if pathLimit < path.utf8ByteSize then .error .nameTooLong
  else .ok ()

/-- What a path leads to. -/
def lookup (path : String) : Except StorageError Found := do
  checkPath path
  s.followAll (.directory (Place.origin path)) (Path.parts path)

/-- The path leads somewhere. -/
def has (path : String) : Bool :=
  (s.lookup path).isOk

/-- The text of a file. -/
def read (path : String) : Except StorageError String := do
  match ← s.lookup path with
  | .file text => return text
  | .directory _ => throw .isDirectory

/-! ### Writing -/

/-- Follow names through directories and make those that are missing; gives the place reached.
A file in the way is told apart by what is wanted of it: to be a directory on the way, or to be
made as one, as it is at the end and behind a directory that had to be made. -/
def makeAll (s : Storage) (made : Bool) (place : Place) :
    List String → Except StorageError (Storage × Place)
  | [] => .ok (s, place)
  | name :: names =>
    match s.follow (.directory place) name with
    | .ok (.directory place) => makeAll s made place names
    | .ok (.file _) =>
      .error (if made || names.all Path.isIdle then .alreadyExists else .notDirectory)
    | .error .notFound =>
      let target := place ++ [name]
      makeAll { s with directories := target :: s.directories } true target names
    | .error e => .error e

/-- Put a file into a directory. -/
def putFile (s : Storage) (place : Place) (name text : String) : Except StorageError Storage :=
  match s.follow (.directory place) name with
  | .ok (.directory _) => .error .isDirectory
  | .ok (.file _) | .error .notFound =>
    let target := place ++ [name]
    .ok { s with files := (target, text) :: s.files.filter (·.1 ≠ target) }
  | .error e => .error e

/-- Write a file, with the directories that lead to it.  A path that ends in idle names asks for
a directory. -/
def write (path text : String) : Except StorageError Storage := do
  checkPath path
  match Path.splitLast? (Path.parts path) with
  | none => throw .isDirectory
  | some (names, last, idle) =>
    let (s, place) ← makeAll s false (Place.origin path) names
    if idle.isEmpty then s.putFile place last text
    else if idle.all (·.isEmpty) then throw .isDirectory
    else match ← s.follow (.directory place) last with
      | .directory _ => throw .isDirectory
      | .file _ => throw .notDirectory

/-- The given files, written one after another; one that cannot be written is left out. -/
def ofFiles (files : List (String × String)) : Storage :=
  files.foldl (fun s (path, text) => (s.write path text).toOption.getD s) empty

end Storage

end Lathe
