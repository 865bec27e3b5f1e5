/-!
# Paths

A path is a row of names set apart by slashes.  Empty names and single dots are *idle*: they stand
for the directory reached so far.  Two dots stand for the one above it.  The *extension* of a path
is what follows the last dot of its last name, provided that something stands before that dot.
-/

namespace Lathe

namespace Path

/-- The names of a path as they are written, empty ones included. -/
def split : List Char → List Char × List (List Char)
  | [] => ([], [])
  | c :: cs =>
    let (name, more) := split cs
    if c = '/' then ([], name :: more) else (c :: name, more)

/-- The names of a path as they are written. -/
def parts (path : String) : List String :=
  let (first, more) := split path.toList
  (first :: more).map String.ofList

/-- The name leads nowhere else. -/
def isIdle (name : String) : Bool :=
  name = "" || name = "."

/-- The last name that is not idle, with the names before it and the idle ones after it. -/
def splitLast? (names : List String) : Option (List String × String × List String) :=
  let idle := names.reverse.takeWhile isIdle
  match names.reverse.dropWhile isIdle with
  | [] => none
  | last :: before => some (before.reverse, last, idle.reverse)

/-- The last name, unless it leads upwards. -/
def fileName? (path : String) : Option String :=
  match splitLast? (parts path) with
  | some (_, last, _) => if last = ".." then none else some last
  | none => none

/-- What follows the last dot of a name that does not start with it. -/
def extension? (path : String) : Option String :=
  match fileName? path with
  | none => none
  | some name =>
    let reversed := name.toList.reverse
    let after := reversed.takeWhile (· ≠ '.')
    match reversed.drop after.length with
    | _ :: _ :: _ => some (String.ofList after.reverse)
    | _ => none

end Path

end Lathe
