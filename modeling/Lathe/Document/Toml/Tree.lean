import Lathe.Document.Value

/-!
# The tables of a TOML document

Tables come about in three ways: under a header of their own, because a header names a table
inside them, or because a key has a point.  Each table may be given once: a header may complete a
table that only its path has called for, and keys with points may only add to tables that such
keys have made.  Under a doubled header a row of tables grows.
-/

namespace Lathe

namespace Document

namespace Toml

/-- How a table has come about. -/
inductive Origin where
  /-- By a header of its own, or as the whole document. -/
  | header
  /-- By a header that names a table inside it. -/
  | path
  /-- By a key with a point. -/
  | dotted
  deriving DecidableEq, Repr

/-- What stands under a name. -/
inductive Node where
  /-- A value. -/
  | leaf (v : Value)
  /-- A table. -/
  | table (origin : Origin) (entries : List (String × Node))
  /-- A row of tables, last one first. -/
  | tables (items : List (List (String × Node)))
  deriving Inhabited

/-- The entries of a table. -/
abbrev Entries := List (String × Node)

namespace Entries

/-- Put a node under a name that is there. -/
def replace (name : String) (node : Node) (es : Entries) : Entries :=
  es.map fun (k, old) => if k = name then (k, node) else (k, old)

/-- Change the table that a path leads to, given how it has come about.  Tables that are missing
on the way come about as `origin` says.  A path goes through the last table of a row. -/
def change (origin : Origin) (f : Origin → Entries → Option Entries) :
    List String → Origin → Entries → Option Entries
  | [], here, es => f here es
  | k :: ks, _, es =>
    match es.lookup k with
    | none => (change origin f ks origin []).map fun inner => es ++ [(k, .table origin inner)]
    | some (.leaf _) => none
    | some (.tables []) => none
    | some (.tables (last :: before)) =>
      (change origin f ks .header last).map fun inner => es.replace k (.tables (inner :: before))
    | some (.table made inner) =>
      if origin = .dotted ∧ made = .header then none
      else (change origin f ks made inner).map fun inner => es.replace k (.table made inner)

/-- Split a path into the way to a table and the name in it. -/
def splitLast : List String → Option (List String × String)
  | [] => none
  | [k] => some ([], k)
  | k :: ks => (splitLast ks).map fun (way, last) => (k :: way, last)

/-- Put a value under a key, whose points make tables. -/
def insert (key : List String) (v : Value) (here : Origin) (es : Entries) : Option Entries := do
  let (way, last) ← splitLast key
  change .dotted (fun made es =>
    if (decide (made = .dotted)) == way.isEmpty then none
    else if (es.lookup last).isSome then none
    else some (es ++ [(last, .leaf v)])) way here es

/-- Put a value under a key below a header. -/
def insertBelow (header key : List String) (v : Value) (es : Entries) : Option Entries :=
  change .path (insert key v) header .header es

/-- Open the table of a header. -/
def openTable (header : List String) (es : Entries) : Option Entries := do
  let (way, last) ← splitLast header
  change .path (fun _ es =>
    match es.lookup last with
    | none => some (es ++ [(last, .table .header [])])
    | some (.table .path inner) => some (es.replace last (.table .header inner))
    | some _ => none) way .header es

/-- Open a further table in the row of a doubled header. -/
def openRow (header : List String) (es : Entries) : Option Entries := do
  let (way, last) ← splitLast header
  change .path (fun _ es =>
    match es.lookup last with
    | none => some (es ++ [(last, .tables [[]])])
    | some (.tables rows) => some (es.replace last (.tables ([] :: rows)))
    | some _ => none) way .header es

end Entries

mutual

/-- What a node says. -/
def Node.toValue : Node → Value
  | .leaf v => v
  | .table _ entries => .table (entriesToValues entries)
  | .tables items => .list (rowsToValues items [])

/-- What entries say. -/
def entriesToValues : List (String × Node) → List (String × Value)
  | [] => []
  | (k, node) :: es => (k, node.toValue) :: entriesToValues es

/-- What a row of tables says, put in order before `after`. -/
def rowsToValues : List (List (String × Node)) → List Value → List Value
  | [], after => after
  | es :: rows, after => rowsToValues rows (.table (entriesToValues es) :: after)

end

end Toml

end Document

end Lathe
