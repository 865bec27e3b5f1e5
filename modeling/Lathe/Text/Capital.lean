/-!
# Capital letters

Program text is read without regard to case.  `Text.capitals` gives the capital form of a
character as far as the letters `A` to `Z` are concerned: some characters outside ASCII have
capital forms that contain such letters, and only those matter to a reader that looks for
letters and digits.  Every other character stays as it is.
-/

namespace Lathe

namespace Text

/-- The characters outside ASCII whose full capital form contains a letter of ASCII, with that
form. -/
def foreignCapitals : List (Char × String) :=
  [('\u00df', "SS"), ('\u0131', "I"), ('\u0149', "\u02bcN"), ('\u017f', "S"),
   ('\u01f0', "J\u030c"), ('\u1e96', "H\u0331"), ('\u1e97', "T\u0308"), ('\u1e98', "W\u030a"),
   ('\u1e99', "Y\u030a"), ('\u1e9a', "A\u02be"), ('\ufb00', "FF"), ('\ufb01', "FI"),
   ('\ufb02', "FL"), ('\ufb03', "FFI"), ('\ufb04', "FFL"), ('\ufb05', "ST"), ('\ufb06', "ST")]

/-- The capital form of one character. -/
def capital (c : Char) : List Char :=
  if c.toNat < 128 then [c.toUpper]
  else match foreignCapitals.lookup c with
    | some form => form.toList
    | none => [c]

/-- The capital form of a text. -/
def capitals (cs : List Char) : List Char :=
  cs.flatMap capital

end Text

end Lathe
