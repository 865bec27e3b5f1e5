import Lathe.Document.Json.Reader

/-!
# Texts and keys of TOML documents

A text stands in double quotes with escapes or in single quotes without any; with three quotes it
may run over several lines.  Up to two quotes may stand inside such a text or right before its
end.  Every line end inside reads as a line feed, and a line end right after the opening quotes
is left out.  Apart from tabs no control character may occur.

A key is a row of names set apart by points; a name is a text on one line or a run of letters,
digits, underscores and hyphens.
-/

namespace Lathe

namespace Document

namespace Toml

/-- A blank on a line. -/
def isBlank (c : Char) : Bool :=
  c = ' ' || c = '\t'

/-- Leave out blanks. -/
def skipBlanks (cs : List Char) : List Char :=
  cs.dropWhile isBlank

/-- What follows a line end. -/
def lineEnd? : List Char → Option (List Char)
  | '\n' :: cs => some cs
  | '\r' :: '\n' :: cs => some cs
  | _ => none

/-- May stand in texts and comments. -/
def isPrintable (c : Char) : Bool :=
  c = '\t' || (0x20 ≤ c.toNat && c.toNat ≠ 0x7F)

/-- The character that hexadecimal digits give. -/
def hexChar? (ds : List Char) : Option Char := do
  let n ← ds.foldlM (fun n c => (Json.hexDigit? c).map (16 * n + ·)) 0
  if h : n.isValidChar then some ⟨n.toUInt32, by
    have hlt : n < UInt32.size := by
      unfold Nat.isValidChar at h
      simp only [UInt32.size]
      omega
    simp only [UInt32.isValidChar, Nat.toUInt32, UInt32.toNat_ofNat_of_lt' hlt]
    exact h⟩
  else none

/-- The character that a letter after a backslash stands for. -/
def escape? : Char → Option Char
  | '"' => some '"'
  | '\\' => some '\\'
  | 'b' => some '\x08'
  | 'f' => some '\x0c'
  | 'n' => some '\n'
  | 'r' => some '\r'
  | 't' => some '\t'
  | _ => none

/-- What a backslash with the characters after it stands for, and what follows. -/
def escaped (cs : List Char) : Option (Char × List Char) :=
  match cs with
  | 'u' :: rest =>
    if rest.length < 4 then none else (hexChar? (rest.take 4)).map (·, rest.drop 4)
  | 'U' :: rest =>
    if rest.length < 8 then none else (hexChar? (rest.take 8)).map (·, rest.drop 8)
  | c :: rest => (escape? c).map (·, rest)
  | [] => none

/-- Leave out blanks and line ends. -/
def skipLines : List Char → List Char
  | '\r' :: '\n' :: cs => skipLines cs
  | c :: cs => if isBlank c ∨ c = '\n' then skipLines cs else c :: cs
  | [] => []

/-- What follows the blanks and line ends after a backslash at the end of a line. -/
def continued? (cs : List Char) : Option (List Char) :=
  (lineEnd? (skipBlanks cs)).map skipLines

/-- A text on one line up to its closing quote; `raw` has no escapes.  `done` holds the
characters so far, last one first; no more are scanned than `bound` has. -/
def lineText (quote : Char) (raw : Bool) (done : List Char) (bound cs : List Char) :
    Option (String × List Char) :=
  match bound, cs with
  | [], _ | _, [] => none
  | _ :: bound, c :: cs =>
    if c = quote then some (String.ofList done.reverse, cs)
    else if c = '\\' ∧ !raw then
      match escaped cs with
      | some (e, rest) => lineText quote raw (e :: done) bound rest
      | none => none
    else if isPrintable c then lineText quote raw (c :: done) bound cs
    else none

/-- A text on several lines up to its closing quotes, scanned in the same way. -/
def blockText (quote : Char) (raw : Bool) (done : List Char) (bound cs : List Char) :
    Option (String × List Char) :=
  match bound, cs with
  | [], _ | _, [] => none
  | _ :: bound, c :: cs =>
    if c = quote then
      let run := 1 + (cs.takeWhile (· = quote)).length
      let rest := cs.dropWhile (· = quote)
      -- fewer than three quotes are text, and up to two more may stand before the closing ones
      if run < 3 then blockText quote raw (List.replicate run quote ++ done) bound rest
      else if run ≤ 5 then
        some (String.ofList (List.replicate (run - 3) quote ++ done).reverse, rest)
      else none
    else if c = '\\' ∧ !raw then
      match continued? cs with
      | some rest => blockText quote raw done bound rest
      | none => match escaped cs with
        | some (e, rest) => blockText quote raw (e :: done) bound rest
        | none => none
    else match lineEnd? (c :: cs) with
      | some rest => blockText quote raw ('\n' :: done) bound rest
      | none => if isPrintable c then blockText quote raw (c :: done) bound cs else none

/-- A text on several lines after its opening quotes. -/
def block (quote : Char) (raw : Bool) (cs : List Char) : Option (String × List Char) :=
  let body := (lineEnd? cs).getD cs
  blockText quote raw [] body body

/-- A text on one line after its opening quote. -/
def line (quote : Char) (raw : Bool) (cs : List Char) : Option (String × List Char) :=
  lineText quote raw [] cs cs

/-- A text. -/
def text : List Char → Option (String × List Char)
  | '"' :: '"' :: '"' :: cs => block '"' false cs
  | '"' :: cs => line '"' false cs
  | '\'' :: '\'' :: '\'' :: cs => block '\'' true cs
  | '\'' :: cs => line '\'' true cs
  | _ => none

/-! ### Keys -/

/-- May stand in a name without quotes. -/
def isBare (c : Char) : Bool :=
  c.isAlphanum || c = '_' || c = '-'

/-- One name of a key. -/
def name : List Char → Option (String × List Char)
  | '"' :: cs => line '"' false cs
  | '\'' :: cs => line '\'' true cs
  | cs =>
    match cs.takeWhile isBare with
    | [] => none
    | bare => some (String.ofList bare, cs.dropWhile isBare)

/-- Keys have fewer names than this. -/
def nestingLimit : Nat := 80

/-- The names of a key with the blanks around them, at most so many. -/
def names : Nat → List Char → Option (List String × List Char)
  | 0, _ => none
  | n + 1, cs =>
    match name (skipBlanks cs) with
    | none => none
    | some (first, rest) =>
      match skipBlanks rest with
      | '.' :: rest => (names n rest).map fun (more, rest) => (first :: more, rest)
      | rest => some ([first], rest)

/-- A key with the blanks around it. -/
def key (cs : List Char) : Option (List String × List Char) :=
  names (nestingLimit - 1) cs

end Toml

end Document

end Lathe
