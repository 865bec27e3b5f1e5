import Lathe.Document.Value

/-!
# Taking documents apart

Readers from document values to the types of the library.  A record is read from a table, by the
names of its fields, or from a list, by their order.  In a table unknown names are passed over
and a known one may occur once; what a field that is missing means is up to the record.  A list
may be shorter than the record if the record says so, and longer only in a format that does not
look at what is left over.
-/

namespace Lathe

namespace Document

namespace Value

/-- A truth value. -/
def bool? : Value → Option Bool
  | bool b => some b
  | _ => none

/-- A text. -/
def text? : Value → Option String
  | text s => some s
  | _ => none

/-- A number; whole numbers count as real ones. -/
def real? : Value → Option Float
  | real x => some x
  | int n => some (Float.ofInt n)
  | _ => none

/-- A whole number from zero up to a limit. -/
def nat? (limit : Nat) : Value → Option Nat
  | int n => if 0 ≤ n ∧ n ≤ limit then some n.toNat else none
  | _ => none

/-- A value that may be missing. -/
def optional? {β : Type} (read : Value → Option β) : Value → Option (Option β)
  | null => some none
  | v => (read v).map some

/-- The largest number of 16 bits. -/
def limit16 : Nat := 65535

/-- The largest number of 32 bits. -/
def limit32 : Nat := 4294967295

/-- The largest number of 64 bits. -/
def limit64 : Nat := 18446744073709551615

/-- A number of 32 bits without sign. -/
def word32? (v : Value) : Option UInt32 := (nat? limit32 v).map UInt32.ofNat

/-- A number of 64 bits without sign. -/
def word64? (v : Value) : Option UInt64 := (nat? limit64 v).map UInt64.ofNat

/-- The name under which a date gives its text when it is read as a table. -/
def dateName : String := "$__toml_private_datetime"

/-- The entries of a table. -/
def entries? : Value → Option (List (String × Value))
  | table entries => some entries
  | date s => some [(dateName, text s)]
  | _ => none

end Value

/-- A field of a record: its name, and how it takes over a value. -/
structure Field (σ : Type) where
  /-- The name in a table. -/
  name : String
  /-- Put a value in. -/
  put : Value → σ → Option σ
  /-- It may be missing from a table. -/
  optional : Bool

namespace Field

/-- A field that is read by a reader and stored by a setter. -/
def of {σ β : Type} (name : String) (read : Value → Option β) (set : σ → β → σ) : Field σ :=
  ⟨name, fun v s => (read v).map (set s), true⟩

/-- A field that a table has to have. -/
def required {σ β : Type} (name : String) (read : Value → Option β) (set : σ → β → σ) :
    Field σ :=
  { of name read set with optional := false }

end Field

/-- How a record is read. -/
structure Schema (σ : Type) where
  /-- The fields, in order. -/
  fields : List (Field σ)
  /-- The record before any field is put in. -/
  start : σ
  /-- A list may give the first few fields only. -/
  shortLists : Bool

namespace Schema

variable {σ : Type} (s : Schema σ)

/-- Put in the entries of a table, one after another; `seen` holds the known names so far. -/
def putEntries (seen : List String) (record : σ) :
    List (String × Value) → Option (List String × σ)
  | [] => some (seen, record)
  | (name, v) :: rest =>
    match s.fields.find? (·.name == name) with
    | none => putEntries seen record rest
    | some f =>
      if seen.contains name then none
      else match f.put v record with
        | some record => putEntries (name :: seen) record rest
        | none => none

/-- Read a record from the entries of a table. -/
def ofEntries (entries : List (String × Value)) : Option σ :=
  match s.putEntries [] s.start entries with
  | some (seen, record) =>
    if s.fields.all fun f => f.optional || seen.contains f.name then some record else none
  | none => none

/-- Put in the items of a list, one for each field; gives the items that are left over. -/
def putItems (shortLists : Bool) (record : σ) :
    List (Field σ) → List Value → Option (σ × List Value)
  | [], left => some (record, left)
  | _ :: _, [] => if shortLists then some (record, []) else none
  | f :: fs, v :: vs =>
    match f.put v record with
    | some record => putItems shortLists record fs vs
    | none => none

/-- Read a record; `longLists` lets a list have items that are not asked for. -/
def read (longLists : Bool) (v : Value) : Option σ :=
  match v with
  | .list items =>
    match putItems s.shortLists s.start s.fields items with
    | some (record, left) => if left.isEmpty || longLists then some record else none
    | none => none
  | v => v.entries?.bind s.ofEntries

end Schema

end Document

end Lathe
