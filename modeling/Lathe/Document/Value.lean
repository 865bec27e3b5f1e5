/-!
# Document values

The common meaning of the two document formats that settings and traces are kept in.  Tables keep
their entries in the order in which they are written, repeated names included.
-/

namespace Lathe

namespace Document

/-- What a document says. -/
inductive Value where
  /-- No value. -/
  | null
  /-- A truth value. -/
  | bool (b : Bool)
  /-- A whole number, written without point or exponent. -/
  | int (n : Int)
  /-- Any other number. -/
  | real (x : Float)
  /-- A text. -/
  | text (s : String)
  /-- A date or a time, by its text. -/
  | date (s : String)
  /-- A number or a text that is well formed but stands for nothing; harmless where no value is
  asked for. -/
  | unreadable
  /-- A list. -/
  | list (items : List Value)
  /-- A table of named values. -/
  | table (entries : List (String × Value))
  deriving Inhabited

end Document

end Lathe
