import Lathe.Document.Json.Number

/-!
# Reading JSON documents

`Json.read?` reads a whole text as one JSON value with blanks around it.  Each reader takes the
characters at hand and gives what it has read with the characters left, or nothing if the text is
not well formed.

Texts are scanned in units of 16 bits where they use `\u`; a surrogate without its partner makes
the text unreadable but not ill formed.
-/

namespace Lathe

namespace Document

namespace Json

/-- Between tokens. -/
def isBlank (c : Char) : Bool :=
  c = ' ' || c = '\n' || c = '\t' || c = '\r'

/-- Leave out blanks. -/
def skipBlanks (cs : List Char) : List Char :=
  cs.dropWhile isBlank

/-! ### Texts -/

/-- A text as far as it has been scanned. -/
structure Scan where
  /-- The characters so far, last one first. -/
  chars : List Char
  /-- A leading surrogate that waits for its partner. -/
  leading : Option Nat
  /-- No surrogate has missed its partner. -/
  sound : Bool

namespace Scan

/-- Before the first character. -/
def start : Scan := ⟨[], none, true⟩

/-- Add a character. -/
def push (s : Scan) (c : Char) : Scan :=
  ⟨c :: s.chars, none, s.sound && s.leading.isNone⟩

/-- Add a unit of 16 bits. -/
def pushUnit (s : Scan) (u : Nat) : Scan :=
  if 0xDC00 ≤ u ∧ u < 0xE000 then
    match s.leading with
    | some l =>
      ⟨Char.ofNat (0x10000 + (l - 0xD800) * 0x400 + (u - 0xDC00)) :: s.chars, none, s.sound⟩
    | none => ⟨s.chars, none, false⟩
  else if 0xD800 ≤ u ∧ u < 0xDC00 then
    ⟨s.chars, some u, s.sound && s.leading.isNone⟩
  else s.push (Char.ofNat u)

/-- The text, if it is one. -/
def text? (s : Scan) : Option String :=
  if s.sound && s.leading.isNone then some (String.ofList s.chars.reverse) else none

end Scan

/-- The value of a hexadecimal digit. -/
def hexDigit? (c : Char) : Option Nat :=
  if c.isDigit then some (c.toNat - '0'.toNat)
  else if 'a' ≤ c ∧ c ≤ 'f' then some (c.toNat - 'a'.toNat + 10)
  else if 'A' ≤ c ∧ c ≤ 'F' then some (c.toNat - 'A'.toNat + 10)
  else none

/-- The unit that four hexadecimal digits give. -/
def hexUnit? (a b c d : Char) : Option Nat := do
  return ((← hexDigit? a) * 16 + (← hexDigit? b)) * 256 + ((← hexDigit? c) * 16 + (← hexDigit? d))

/-- The character that a letter after a backslash stands for. -/
def escape? : Char → Option Char
  | '"' => some '"'
  | '\\' => some '\\'
  | '/' => some '/'
  | 'b' => some '\x08'
  | 'f' => some '\x0c'
  | 'n' => some '\n'
  | 'r' => some '\r'
  | 't' => some '\t'
  | _ => none

/-- Scan the rest of a text up to its closing quote. -/
def scanText (s : Scan) : List Char → Option (Scan × List Char)
  | [] => none
  | '"' :: cs => some (s, cs)
  | '\\' :: 'u' :: a :: b :: c :: d :: cs =>
    match hexUnit? a b c d with
    | some u => scanText (s.pushUnit u) cs
    | none => none
  | '\\' :: c :: cs =>
    match escape? c with
    | some e => scanText (s.push e) cs
    | none => none
  | c :: cs => if c.toNat < 0x20 ∨ c = '\\' then none else scanText (s.push c) cs

/-- A text after its opening quote. -/
def text (cs : List Char) : Option (Option String × List Char) :=
  (scanText .start cs).map fun (s, rest) => (s.text?, rest)

/-! ### Numbers -/

/-- One digit or more. -/
def digits (cs : List Char) : Option (List Char × List Char) :=
  match cs.takeWhile Char.isDigit with
  | [] => none
  | ds => some (ds, cs.dropWhile Char.isDigit)

/-- The digits before the point: no zero leads others. -/
def whole (cs : List Char) : Option (List Char × List Char) := do
  let (ds, rest) ← digits cs
  if ds.head? = some '0' ∧ ds.length ≠ 1 then none else some (ds, rest)

/-- The point with its digits, if there is one. -/
def fraction : List Char → Option (Option (List Char) × List Char)
  | '.' :: cs => (digits cs).map fun (ds, rest) => (some ds, rest)
  | cs => some (none, cs)

/-- The exponent, if there is one. -/
def exponent : List Char → Option (Option (Bool × List Char) × List Char)
  | c :: cs =>
    if c = 'e' ∨ c = 'E' then
      match cs with
      | '+' :: cs => (digits cs).map fun (ds, rest) => (some (false, ds), rest)
      | '-' :: cs => (digits cs).map fun (ds, rest) => (some (true, ds), rest)
      | cs => (digits cs).map fun (ds, rest) => (some (false, ds), rest)
    else some (none, c :: cs)
  | [] => some (none, [])

/-- A number without its sign. -/
def unsigned (negative : Bool) (cs : List Char) : Option (Number × List Char) := do
  let (w, cs) ← whole cs
  let (f, cs) ← fraction cs
  let (e, cs) ← exponent cs
  return (⟨negative, w, f, e⟩, cs)

/-- A number. -/
def number : List Char → Option (Number × List Char)
  | '-' :: cs => unsigned true cs
  | cs => unsigned false cs

/-! ### Values -/

/-- What follows the first item of a list: further items, at most so many, up to the closing
bracket. -/
def moreItems (item : List Char → Option (Value × List Char)) (items : List Value) :
    Nat → List Char → Option (Value × List Char)
  | 0, _ => none
  | n + 1, cs =>
    match skipBlanks cs with
    | ']' :: rest => some (.list items.reverse, rest)
    | ',' :: rest =>
      match item (skipBlanks rest) with
      | some (v, rest) => moreItems item (v :: items) n rest
      | none => none
    | _ => none

/-- A list of at most `bound` items after its opening bracket. -/
def list (item : List Char → Option (Value × List Char)) (bound : Nat) (cs : List Char) :
    Option (Value × List Char) :=
  match skipBlanks cs with
  | ']' :: rest => some (.list [], rest)
  | cs =>
    match item cs with
    | some (v, rest) => moreItems item [v] bound rest
    | none => none

/-- A name with its value. -/
def entry (item : List Char → Option (Value × List Char)) :
    List Char → Option ((Option String × Value) × List Char)
  | '"' :: cs => do
    let (name, rest) ← text cs
    match skipBlanks rest with
    | ':' :: rest =>
      let (v, rest) ← item (skipBlanks rest)
      return ((name, v), rest)
    | _ => none
  | _ => none

/-- The table with the given entries, last one first; unreadable if one of the names is. -/
def tableOf (entries : List (Option String × Value)) : Value :=
  match entries.reverse.mapM fun (name, v) => name.map (·, v) with
  | some entries => .table entries
  | none => .unreadable

/-- What follows the first entry of a table: further entries, at most so many, up to the closing
brace. -/
def moreEntries (item : List Char → Option (Value × List Char))
    (entries : List (Option String × Value)) : Nat → List Char → Option (Value × List Char)
  | 0, _ => none
  | n + 1, cs =>
    match skipBlanks cs with
    | '}' :: rest => some (tableOf entries, rest)
    | ',' :: rest =>
      match entry item (skipBlanks rest) with
      | some (e, rest) => moreEntries item (e :: entries) n rest
      | none => none
    | _ => none

/-- A table of at most `bound` entries after its opening brace. -/
def table (item : List Char → Option (Value × List Char)) (bound : Nat) (cs : List Char) :
    Option (Value × List Char) :=
  match skipBlanks cs with
  | '}' :: rest => some (.table [], rest)
  | cs =>
    match entry item cs with
    | some (e, rest) => moreEntries item [e] bound rest
    | none => none

/-- A value without blanks before it, if it is nested at most `bound` levels deep and no list or
table in it has more parts than that. -/
def value : Nat → List Char → Option (Value × List Char)
  | 0, _ => none
  | bound + 1, cs =>
    match cs with
    | 'n' :: 'u' :: 'l' :: 'l' :: rest => some (.null, rest)
    | 't' :: 'r' :: 'u' :: 'e' :: rest => some (.bool true, rest)
    | 'f' :: 'a' :: 'l' :: 's' :: 'e' :: rest => some (.bool false, rest)
    | '"' :: rest => (text rest).map fun (s, rest) => ((s.map Value.text).getD .unreadable, rest)
    | '[' :: rest => list (value bound) bound rest
    | '{' :: rest => table (value bound) bound rest
    | cs => (number cs).map fun (n, rest) => (n.value, rest)

/-- Read a whole text as one value.  Every level and every part takes a character at least, so the
length of the text bounds both. -/
def read? (s : String) : Option Value :=
  let cs := s.toList
  match value (cs.length + 1) (skipBlanks cs) with
  | some (v, rest) => if (skipBlanks rest).isEmpty then some v else none
  | none => none

end Json

end Document

end Lathe
