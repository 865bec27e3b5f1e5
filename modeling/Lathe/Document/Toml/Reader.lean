import Lathe.Document.Toml.Moment
import Lathe.Document.Toml.Text
import Lathe.Document.Toml.Tree

/-!
# Reading TOML documents

`Toml.read?` reads a whole text as one document: lines with a key and its value, headers, blank
lines and comments.  Lists may run over several lines, tables in braces may not.
-/

namespace Lathe

namespace Document

namespace Toml

/-- What follows a comment, if there is one. -/
def skipComment : List Char → List Char
  | '#' :: cs => cs.dropWhile isPrintable
  | cs => cs

/-- What follows the end of a line, after blanks and a comment.  The end of the document ends a
line too. -/
def lineRest? (cs : List Char) : Option (List Char) :=
  match skipComment (skipBlanks cs) with
  | [] => some []
  | rest => lineEnd? rest

/-- Leave out blanks, comments and line ends; `inside` says that a comment is open. -/
def skipGap (inside : Bool) : List Char → List Char
  | '\r' :: '\n' :: cs => skipGap false cs
  | c :: cs =>
    if c = '\n' then skipGap false cs
    else if inside then if isPrintable c then skipGap true cs else c :: cs
    else if isBlank c then skipGap false cs
    else if c = '#' then skipGap true cs
    else c :: cs
  | [] => []

/-- Leave out blanks, comments and line ends. -/
def skipGaps (cs : List Char) : List Char :=
  skipGap false cs

/-- The items of a list up to its closing bracket; `done` holds those so far, last one first, and
there are no more to come than `bound` has characters. -/
def listItems (item : List Char → Option (Value × List Char)) (done : List Value)
    (bound cs : List Char) : Option (Value × List Char) :=
  match bound with
  | [] => none
  | _ :: bound =>
    match skipGaps cs with
    | ']' :: rest => some (.list done.reverse, rest)
    | cs =>
      match item cs with
      | none => none
      | some (v, rest) =>
        match skipGaps rest with
        | ']' :: rest => some (.list (v :: done).reverse, rest)
        | ',' :: rest => listItems item (v :: done) bound rest
        | _ => none

/-- The entries of a table in braces up to its closing brace, bounded in the same way. -/
def braceEntries (item : List Char → Option (Value × List Char)) (done : Entries)
    (bound cs : List Char) : Option (Value × List Char) :=
  match bound with
  | [] => none
  | _ :: bound => do
    let (k, rest) ← key cs
    let rest ← mark '=' rest
    let (v, rest) ← item (skipBlanks rest)
    let done ← done.insert k v .header
    match skipBlanks rest with
    | '}' :: rest => return (.table (entriesToValues done), rest)
    | ',' :: rest => braceEntries item done bound rest
    | _ => none

/-- A table in braces after its opening brace. -/
def braces (item : List Char → Option (Value × List Char)) (cs : List Char) :
    Option (Value × List Char) :=
  match skipBlanks cs with
  | '}' :: rest => some (.table [], rest)
  | _ => braceEntries item [] cs cs

/-- A number, a date or a time. -/
def scalar (cs : List Char) : Option (Value × List Char) :=
  match cs with
  | '0' :: 'x' :: rest => based 16 (fun c => (Json.hexDigit? c).isSome) rest
  | '0' :: 'o' :: rest => based 8 (fun c => c.isDigit && c.toNat < '8'.toNat) rest
  | '0' :: 'b' :: rest => based 2 (fun c => c = '0' || c = '1') rest
  | cs =>
    match Moment.read? cs with
    | some (m, rest) => some (.date m.text, rest)
    | none => decimal cs

/-- A value, nested fewer than `depth` levels deep. -/
def value : Nat → List Char → Option (Value × List Char)
  | 0, _ => none
  | depth + 1, cs =>
    match cs with
    | '"' :: _ | '\'' :: _ => (text cs).map fun (s, rest) => (.text s, rest)
    | '[' :: rest => if depth = 0 then none else listItems (value depth) [] cs rest
    | '{' :: rest => if depth = 0 then none else braces (value depth) rest
    | 't' :: 'r' :: 'u' :: 'e' :: rest => some (.bool true, rest)
    | 'f' :: 'a' :: 'l' :: 's' :: 'e' :: rest => some (.bool false, rest)
    | cs => scalar cs

/-- One line with a key: what follows it, and the entries with the value in place. -/
def keyLine (header : List String) (es : Entries) (cs : List Char) :
    Option (Entries × List Char) := do
  let (k, rest) ← key cs
  let rest ← mark '=' rest
  let (v, rest) ← value nestingLimit (skipBlanks rest)
  let es ← es.insertBelow header k v
  let rest ← lineRest? rest
  return (es, rest)

/-- One line with a header: the header, what follows the line, and the entries with its table. -/
def headerLine (es : Entries) : List Char → Option (List String × Entries × List Char)
  | '[' :: cs => do
    let (header, rest) ← key cs
    let rest ← mark ']' (← mark ']' rest)
    let es ← es.openRow header
    let rest ← lineRest? rest
    return (header, es, rest)
  | cs => do
    let (header, rest) ← key cs
    let rest ← mark ']' rest
    let es ← es.openTable header
    let rest ← lineRest? rest
    return (header, es, rest)

/-- All lines, at most so many, below the header at hand. -/
def document (header : List String) (es : Entries) : Nat → List Char → Option Entries
  | 0, _ => none
  | n + 1, cs =>
    match skipBlanks cs with
    | [] => some es
    | '[' :: rest => do
      let (header, es, rest) ← headerLine es rest
      document header es n rest
    | c :: rest =>
      if c = '#' ∨ (lineEnd? (c :: rest)).isSome then do
        document header es n (← lineRest? (c :: rest))
      else do
        let (es, rest) ← keyLine header es (c :: rest)
        document header es n rest

/-- Read a whole text as one document; a mark of byte order may stand before it. -/
def read? (s : String) : Option Value :=
  let cs := match s.toList with
    | '\ufeff' :: cs => cs
    | cs => cs
  (document [] [] (cs.length + 1) cs).map fun es => .table (entriesToValues es)

end Toml

end Document

end Lathe
