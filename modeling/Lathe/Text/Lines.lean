/-!
# Lines of a text

A line ends at a line feed, and a carriage return right before the line feed belongs to the end
of the line.  What follows the last line feed is a line of its own unless it is empty; a carriage
return at its end is kept.
-/

namespace Lathe

namespace Text

/-- The pieces between line feeds: the first one and all others. -/
def pieces : List Char → List Char × List (List Char)
  | [] => ([], [])
  | c :: cs =>
    let (piece, more) := pieces cs
    if c = '\n' then ([], piece :: more) else (c :: piece, more)

/-- Take off one carriage return at the end. -/
def dropReturn (cs : List Char) : List Char :=
  if cs.getLast? = some '\r' then cs.dropLast else cs

/-- Lines from the piece at hand and the pieces after it. -/
def linesOf (piece : List Char) : List (List Char) → List (List Char)
  | [] => if piece.isEmpty then [] else [piece]
  | next :: more => dropReturn piece :: linesOf next more

/-- The lines of a text, without what ends them. -/
def lines (text : String) : List String :=
  let (piece, more) := pieces text.toList
  (linesOf piece more).map String.ofList

end Text

end Lathe
