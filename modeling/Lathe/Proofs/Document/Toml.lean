import Lathe.Proofs.Document.TomlText

/-!
# Printed TOML documents read back

A printed document is read line by line.  While its lines are read, the tables that are open form a
path with a hole at its end (`Toml.Hole.fill`): values and headers go into the hole, and what stands
before it does not change any more.  What is read in the end has the values of a table before the
tables in it (`Toml.inToml`), as they are printed.

* `Toml.Reads` : what reading some lines comes to; `Reads.blank`, `Reads.key` and `Reads.header` are
  the lines that occur, `Reads.table` all of a table.
* `Toml.reads_ownLines`, `Toml.reads_innerLines` : the lines of a table fill its hole.
* `Toml.read?_print?` : a document reads back.
-/

namespace Lathe

namespace Document

namespace Toml

/-! ### Lines -/

/-- Lines, each with its end. -/
def lineChars (lines : List String) : List Char := lines.flatMap fun line => line.toList ++ ['\n']

theorem lineChars_append (lines more : List String) :
    lineChars (lines ++ more) = lineChars lines ++ lineChars more :=
  List.flatMap_append

theorem lineChars_singleton (line : String) : lineChars [line] = line.toList ++ ['\n'] := by
  simp [lineChars]

theorem intercalate_toList {lines : List String} (h : lines ≠ []) :
    ("\n".intercalate lines ++ "\n").toList = lineChars lines := by
  induction lines with
  | nil => exact absurd rfl h
  | cons line lines ih =>
    cases lines with
    | nil => simp [lineChars]
    | cons next lines =>
      have hmore := ih (by simp)
      simp only [String.toList_append, String.toList_intercalate, List.map_cons,
        List.intercalate_cons_cons] at hmore ⊢
      rw [List.append_assoc, List.append_assoc, hmore]
      simp [lineChars]

/-- Reading some lines leads from one header with entries to another, whatever follows them. -/
def Reads (lines : List String) (header : List String) (es : Entries) (header' : List String)
    (es' : Entries) : Prop :=
  ∀ n rest, document header es (n + lines.length) (lineChars lines ++ rest) =
    document header' es' n rest

theorem Reads.nil (header : List String) (es : Entries) : Reads [] header es header es :=
  fun _ _ => rfl

theorem Reads.append {lines more header₁ header₂ header₃ : List String} {es₁ es₂ es₃ : Entries}
    (h : Reads lines header₁ es₁ header₂ es₂) (h' : Reads more header₂ es₂ header₃ es₃) :
    Reads (lines ++ more) header₁ es₁ header₃ es₃ := by
  intro n rest
  have hlines := h (n + more.length) (lineChars more ++ rest)
  rw [lineChars_append, List.append_assoc, List.length_append, ← h' n rest, ← hlines]
  congr 1
  omega

theorem Reads.blank (header : List String) (es : Entries) : Reads [""] header es header es :=
  fun _ _ => rfl

theorem lineRest?_newline (rest : List Char) : lineRest? ('\n' :: rest) = some rest := rfl

theorem endsValue_newline (rest : List Char) : EndsValue ('\n' :: rest) := by
  intro c hc
  exact .inr (by simpa using hc.symm)

theorem keyLine_written {header : List String} {es es' : Entries} {name part : String} {v : Value}
    (hpart : ReadsBack part v) (h : es.insertBelow header [name] v = some es') (rest : List Char) :
    keyLine header es
        ((writtenName name).toList ++ ' ' :: '=' :: ' ' :: (part.toList ++ '\n' :: rest)) =
      some (es', rest) := by
  obtain ⟨hstart, hvalue⟩ := hpart
  have hlength : [name].length ≤ nestingLimit - 1 := by simp [nestingLimit]
  have hkey : names (nestingLimit - 1)
      ((writtenKey [name]).toList ++ ' ' :: '=' :: ' ' :: (part.toList ++ '\n' :: rest)) = _ :=
    names_writtenKey (by simp) hlength (by simp [isBare]) (by simp [skipBlanks, isBlank])
  have hsingle : writtenKey [name] = writtenName name := by simp [writtenKey]
  have hblank : skipBlanks (' ' :: '=' :: ' ' :: (part.toList ++ '\n' :: rest)) =
      '=' :: ' ' :: (part.toList ++ '\n' :: rest) := rfl
  have hspace : skipBlanks (' ' :: (part.toList ++ '\n' :: rest)) = part.toList ++ '\n' :: rest :=
    hstart _
  rw [hsingle] at hkey
  rw [keyLine, Toml.key, hkey]
  simp [hblank, mark, hspace, hvalue _ (endsValue_newline rest), h, lineRest?_newline]

theorem document_of_startsName {header : List String} {es es' : Entries} {c : Char}
    {cs rest : List Char} (hc : StartsName c) (h : keyLine header es (c :: cs) = some (es', rest))
    (n : Nat) : document header es (n + 1) (c :: cs) = document header es' n rest := by
  have hskip : skipBlanks (c :: cs) = c :: cs := by
    rw [skipBlanks, List.dropWhile_cons_of_neg (by simp [hc.isBlank])]
  have hbracket := hc.ne (d := '[') (by decide) (by decide)
  have hcomment := hc.ne (d := '#') (by decide) (by decide)
  have hfeed := hc.ne (d := '\n') (by decide) (by decide)
  have hreturn := hc.ne (d := '\r') (by decide) (by decide)
  have hline : lineEnd? (c :: cs) = none := by
    rw [lineEnd?.eq_def]
    split <;> simp_all
  rw [document, hskip]
  split <;> simp_all

/-- A line with a key puts its value into the table of the header at hand. -/
theorem Reads.key {header : List String} {es es' : Entries} {name part : String} {v : Value}
    (hpart : ReadsBack part v) (h : es.insertBelow header [name] v = some es') :
    Reads [writtenName name ++ " = " ++ part] header es header es' := by
  intro n rest
  have hchars : lineChars [writtenName name ++ " = " ++ part] ++ rest =
      (writtenName name).toList ++ ' ' :: '=' :: ' ' :: (part.toList ++ '\n' :: rest) := by
    simp [lineChars]
  have hline := keyLine_written hpart h rest
  obtain ⟨c, cs, hname, hc⟩ := exists_writtenName name
  rw [hchars]
  rw [hname, List.cons_append] at hline ⊢
  exact document_of_startsName hc hline n

/-- A line with a header opens its table. -/
theorem Reads.header (header : List String) {path : List String} {es es' : Entries}
    (hpath : path ≠ []) (hlength : path.length < nestingLimit)
    (h : es.openTable path = some es') :
    Reads ["[" ++ writtenKey path ++ "]"] header es path es' := by
  intro n rest
  have hchars : lineChars ["[" ++ writtenKey path ++ "]"] ++ rest =
      '[' :: ((writtenKey path).toList ++ ']' :: '\n' :: rest) := by
    simp [lineChars]
  have hkey : Toml.key ((writtenKey path).toList ++ ']' :: '\n' :: rest) =
      some (path, ']' :: '\n' :: rest) :=
    names_writtenKey hpath (Nat.le_sub_one_of_lt hlength) (by simp [isBare])
      (by simp [skipBlanks, isBlank])
  have hheader : headerLine es ((writtenKey path).toList ++ ']' :: '\n' :: rest) =
      some (path, es', rest) := by
    obtain ⟨c, cs, hstart, hc⟩ := exists_writtenKey hpath
    have hbracket := hc.ne (d := '[') (by decide) (by decide)
    rw [hstart, List.cons_append] at hkey ⊢
    rw [headerLine.eq_def]
    split <;> simp_all [mark, lineRest?_newline]
  have hskip : ∀ cs, skipBlanks ('[' :: cs) = '[' :: cs := fun _ => rfl
  rw [hchars, List.length_singleton, document, hskip]
  simp [hheader]

/-! ### The tables that are open -/

/-- Tables that are open, from the outermost on: what each has before the next one, and the name of
the next one. -/
abbrev Hole := List (Entries × String)

namespace Hole

/-- The names that lead to the innermost table. -/
def path (hole : Hole) : List String := hole.map Prod.snd

/-- The document whose innermost table has the given entries. -/
def fill : Hole → Entries → Entries
  | [], es => es
  | (before, name) :: hole, es => before ++ [(name, .table .header (fill hole es))]

/-- No name on the path has been used before. -/
def Fresh (hole : Hole) : Prop := ∀ p ∈ hole, p.1.lookup p.2 = none

theorem fill_append (hole : Hole) (before es : Entries) (name : String) :
    fill (hole ++ [(before, name)]) es =
      fill hole (before ++ [(name, .table .header es)]) := by
  induction hole with
  | nil => rfl
  | cons p hole ih => simp [fill, ih]

theorem Fresh.append {hole : Hole} (h : hole.Fresh) {before : Entries} {name : String}
    (hname : before.lookup name = none) : Fresh (hole ++ [(before, name)]) := by
  intro p hp
  rcases List.mem_append.1 hp with hp | hp
  · exact h p hp
  · rw [List.mem_singleton.1 hp]
    exact hname

end Hole

namespace Entries

theorem replace_append {before : Entries} {name : String} (h : before.lookup name = none)
    (old new : Node) : replace name new (before ++ [(name, old)]) = before ++ [(name, new)] := by
  have hbefore : replace name new before = before := by
    refine (List.map_congr_left fun e he => ?_).trans (List.map_id before)
    obtain ⟨k, node⟩ := e
    have hne : name ≠ k := by simpa using List.lookup_eq_none_iff.1 h (k, node) he
    exact if_neg (Ne.symm hne)
  have hlast : replace name new [(name, old)] = [(name, new)] := by simp [replace]
  rw [replace, List.map_append]
  exact congrArg₂ _ hbefore hlast

/-- What is changed below the path of a hole is changed in the hole. -/
theorem change_fill (f : Origin → Entries → Option Entries) (names : List String) {hole : Hole}
    (h : hole.Fresh) (es : Entries) :
    change .path f (hole.path ++ names) .header (hole.fill es) =
      (change .path f names .header es).map hole.fill := by
  induction hole with
  | nil => simp [Hole.path, Hole.fill]
  | cons p hole ih =>
    obtain ⟨before, name⟩ := p
    obtain ⟨hname, hhole⟩ := List.forall_mem_cons.1 h
    have hlookup : (before ++ [(name, Node.table .header (Hole.fill hole es))]).lookup name =
        some (.table .header (Hole.fill hole es)) := by
      rw [List.lookup_append, hname]
      simp
    have hinner := ih hhole
    simp only [Hole.path, List.map_cons, List.cons_append, Hole.fill, change, hlookup] at hinner ⊢
    rw [hinner]
    simp [replace_append hname, Function.comp_def]

theorem insertBelow_fill {hole : Hole} (h : hole.Fresh) {es : Entries} {name : String}
    (hname : es.lookup name = none) (v : Value) :
    insertBelow hole.path [name] v (hole.fill es) = some (hole.fill (es ++ [(name, .leaf v)])) := by
  have hinsert : insert [name] v .header es = some (es ++ [(name, .leaf v)]) := by
    simp [insert, splitLast, change, hname]
  have hchange := change_fill (insert [name] v) [] h es
  rw [List.append_nil, change, hinsert] at hchange
  exact hchange

theorem splitLast_append (names : List String) (name : String) :
    splitLast (names ++ [name]) = some (names, name) := by
  induction names with
  | nil => rfl
  | cons k names ih =>
    cases names with
    | nil => rfl
    | cons k' names =>
      rw [List.cons_append, List.cons_append] at *
      rw [splitLast, ih]
      · rfl
      · simp

theorem openTable_fill {hole : Hole} (h : hole.Fresh) {es : Entries} {name : String}
    (hname : es.lookup name = none) :
    openTable (hole.path ++ [name]) (hole.fill es) =
      some (Hole.fill (hole ++ [(es, name)]) []) := by
  rw [openTable, splitLast_append]
  have hchange := fun f => change_fill f [] h es
  simp only [List.append_nil] at hchange
  exact (hchange _).trans (by simp [change, hname, Hole.fill_append])

end Entries

/-! ### Tables -/

/-- What the own lines of a table put into it. -/
def ownEntries : List (String × Value) → Entries
  | [] => []
  | (_, .table _) :: es => ownEntries es
  | (name, v) :: es => (name, .leaf v) :: ownEntries es

/-- What the headers of the tables inside a table put into it. -/
def innerEntries : List (String × Value) → Entries
  | [] => []
  | (name, .table entries) :: es =>
    (name, .table .header (ownEntries entries ++ innerEntries entries)) :: innerEntries es
  | (_, _) :: es => innerEntries es

/-- The entries of a document as they are read: the values of a table, then the tables in it. -/
def inToml (entries : List (String × Value)) : List (String × Value) :=
  entriesToValues (ownEntries entries ++ innerEntries entries)

/-- The entries of a table under a header of some names are read back: their own values are, no name
occurs twice in a table, and headers have not too many names. -/
def KeepsEntries (names : Nat) : List (String × Value) → Prop
  | [] => True
  | (_, .table entries) :: es =>
    (names + 1 < nestingLimit ∧ (entries.map Prod.fst).Nodup ∧ KeepsEntries (names + 1) entries) ∧
      KeepsEntries names es
  | (_, v) :: es => KeepsLeaf v ∧ KeepsEntries names es

theorem perm_names (entries : List (String × Value)) :
    ((ownEntries entries ++ innerEntries entries).map Prod.fst).Perm (entries.map Prod.fst) := by
  fun_induction ownEntries entries with
  | case1 => simp [innerEntries]
  | case2 name inner es ih =>
    simp only [innerEntries, List.map_append, List.map_cons] at ih ⊢
    exact List.perm_middle.trans (ih.cons name)
  | case3 name v es hv ih =>
    rw [innerEntries]
    · exact ih.cons name
    · exact hv

/-- Where no name occurs twice, none does in what is read. -/
theorem nodup_names {entries : List (String × Value)} (h : (entries.map Prod.fst).Nodup) :
    ((ownEntries entries).map Prod.fst).Nodup ∧
      ((ownEntries entries ++ innerEntries entries).map Prod.fst).Nodup := by
  have hall := (perm_names entries).nodup_iff.2 h
  rw [List.map_append] at hall ⊢
  exact ⟨(List.nodup_append.1 hall).1, hall⟩

/-- The names of the entries that follow are new. -/
theorem lookup_eq_none {done more : Entries} {name : String} {node : Node}
    (h : ((done ++ (name, node) :: more).map Prod.fst).Nodup) : done.lookup name = none := by
  rw [List.lookup_eq_none_iff]
  intro e he
  rw [List.map_append] at h
  have hne := (List.nodup_append.1 h).2.2 e.1 (List.mem_map_of_mem he) name (by simp)
  simpa using Ne.symm hne

/-- **The own lines of a table fill its hole.** -/
theorem reads_ownLines {names : Nat} {entries : List (String × Value)} {own : List String}
    (h : ownLines? entries = some own) (hentries : KeepsEntries names entries) {hole : Hole}
    (hhole : hole.Fresh) (done : Entries)
    (hnodup : ((done ++ ownEntries entries).map Prod.fst).Nodup) :
    Reads own hole.path (hole.fill done) hole.path (hole.fill (done ++ ownEntries entries)) := by
  fun_induction ownEntries entries generalizing own done with
  | case1 =>
    obtain rfl := Option.some.inj h
    rw [List.append_nil]
    exact .nil _ _
  | case2 name inner es ih =>
    rw [ownLines?] at h
    rw [KeepsEntries] at hentries
    exact ih h hentries.2 done hnodup
  | case3 name v es hv ih =>
    rw [ownLines?] at h
    · rw [KeepsEntries] at hentries
      · simp only [Option.bind_eq_bind, Option.bind_eq_some_iff, Option.pure_def,
          Option.some.injEq] at h
        obtain ⟨part, hpart, parts, hparts, rfl⟩ := h
        have hline := Reads.key (readsBack_inline hentries.1 hpart)
          (Entries.insertBelow_fill hhole (lookup_eq_none hnodup) v)
        have hrest : ((done ++ [(name, Node.leaf v)] ++ ownEntries es).map Prod.fst).Nodup := by
          simpa using hnodup
        have hmore := ih hparts hentries.2 _ hrest
        rw [List.append_assoc, List.singleton_append] at hmore
        exact hline.append hmore
      · exact hv
    · exact hv

/-- A blank line and a header open the hole of a table, which its lines fill. -/
theorem Reads.table (header : List String) {hole : Hole} (hhole : hole.Fresh) {done : Entries}
    {name : String} (hname : done.lookup name = none) (hlength : hole.length + 1 < nestingLimit)
    {lines header' : List String} {es : Entries}
    (h : Reads lines (hole.path ++ [name]) (Hole.fill (hole ++ [(done, name)]) []) header'
      (Hole.fill (hole ++ [(done, name)]) es)) :
    Reads (["", "[" ++ writtenKey (hole.path ++ [name]) ++ "]"] ++ lines) header (hole.fill done)
      header' (hole.fill (done ++ [(name, .table .header es)])) := by
  have hlengthPath : (hole.path ++ [name]).length < nestingLimit := by
    simpa [Hole.path] using hlength
  have hheader := Reads.header header (by simp) hlengthPath (Entries.openTable_fill hhole hname)
  rw [← Hole.fill_append]
  exact ((Reads.blank header _).append hheader).append h

/-- **The lines of the tables inside a table fill its hole.** -/
theorem reads_innerLines {entries : List (String × Value)} {inner : List String} (hole : Hole)
    (h : innerLines? (hole.path.map writtenName) entries = some inner)
    (hentries : KeepsEntries hole.length entries) (hhole : hole.Fresh) {done : Entries}
    (hnodup : ((done ++ innerEntries entries).map Prod.fst).Nodup) (header : List String) :
    ∃ header', Reads inner header (hole.fill done) header'
      (hole.fill (done ++ innerEntries entries)) := by
  fun_induction innerEntries entries generalizing inner hole done header with
  | case1 =>
    rw [innerLines?] at h
    obtain rfl := Option.some.inj h
    rw [List.append_nil]
    exact ⟨header, .nil _ _⟩
  | case2 name entries es ihInner ih =>
    rw [KeepsEntries] at hentries
    obtain ⟨⟨hlength, hnames, hinner⟩, hes⟩ := hentries
    have hname := lookup_eq_none hnodup
    have hfresh := hhole.append hname
    have hpath : Hole.path (hole ++ [(done, name)]) = hole.path ++ [name] := by simp [Hole.path]
    have hwritten : hole.path.map writtenName ++ [writtenName name] =
        (Hole.path (hole ++ [(done, name)])).map writtenName := by simp [hpath]
    -- the parts of the text: a blank line, the header, the own lines, the tables inside, the rest
    rw [innerLines?, hwritten] at h
    simp only [Option.bind_eq_bind, Option.bind_eq_some_iff, Option.pure_def,
      Option.some.injEq] at h
    obtain ⟨own, hown, lines, hlines, more, hmore, rfl⟩ := h
    obtain ⟨hownNames, hallNames⟩ := nodup_names hnames
    have hownLines := reads_ownLines hown hinner hfresh ([] : Entries) hownNames
    obtain ⟨header₁, hinnerLines⟩ := ihInner _ hlines (by simpa using hinner) hfresh hallNames
      (Hole.path (hole ++ [(done, name)]))
    have hlinesOf := hownLines.append hinnerLines
    rw [hpath] at hlinesOf
    have htable := Reads.table header hhole hname hlength hlinesOf
    have hrest : ((done ++ [(name,
        Node.table .header (ownEntries entries ++ innerEntries entries))] ++
          innerEntries es).map Prod.fst).Nodup := by simpa using hnodup
    obtain ⟨header₂, hmoreLines⟩ := ih hole hmore hes hhole hrest header₁
    have hall := htable.append hmoreLines
    rw [List.append_assoc done, List.singleton_append] at hall
    rw [hpath, List.append_assoc _ own lines]
    exact ⟨header₂, hall⟩
  | case3 name v es hv ih =>
    rw [innerLines?] at h
    · rw [KeepsEntries] at hentries
      · exact ih hole h hentries.2 hhole hnodup header
      · exact hv
    · rintro name' entries heq
      exact hv entries (Prod.mk.inj heq).2

/-- A table without tables inside is read back as it is. -/
theorem inToml_of_keepsLeaf {entries : List (String × Value)} (h : ∀ e ∈ entries, KeepsLeaf e.2) :
    inToml entries = entries ∧ ∀ names, KeepsEntries names entries := by
  induction entries with
  | nil => simp [inToml, ownEntries, innerEntries, entriesToValues, KeepsEntries]
  | cons e es ih =>
    obtain ⟨name, v⟩ := e
    obtain ⟨hv, hes⟩ := List.forall_mem_cons.1 h
    obtain ⟨hsame, hkeeps⟩ := ih hes
    have hleaf : ∀ inner, v = Value.table inner → False := by
      rintro inner rfl
      exact hv
    rw [inToml] at hsame ⊢
    rw [ownEntries, innerEntries]
    · refine ⟨congrArg ((name, v) :: ·) hsame, fun names => ?_⟩
      rw [KeepsEntries]
      · exact ⟨hv, hkeeps names⟩
      · exact hleaf
    · exact hleaf
    · exact hleaf

/-! ### Documents -/

/-- A document is read back: as a table under no header is. -/
def Keeps (entries : List (String × Value)) : Prop :=
  (entries.map Prod.fst).Nodup ∧ KeepsEntries 0 entries

theorem length_le_lineChars (lines : List String) : lines.length ≤ (lineChars lines).length := by
  induction lines with
  | nil => simp
  | cons line lines ih =>
    simp only [lineChars, List.flatMap_cons, List.length_append, List.length_cons] at ih ⊢
    omega

/-- The mark of byte order does not start a line. -/
theorem document_mark (header : List String) (es : Entries) (n : Nat) (cs : List Char) :
    document header es n ('\ufeff' :: cs) = none := by
  cases n with
  | zero => rfl
  | succ n => rfl

theorem read?_of_reads {lines header : List String} {es : Entries} {text : String}
    (htext : text.toList = lineChars lines) (h : Reads lines [] [] header es) :
    read? text = some (.table (entriesToValues es)) := by
  have hle := length_le_lineChars lines
  have hlines : document [] [] ((lineChars lines).length + 1) (lineChars lines) = some es := by
    have hall := h ((lineChars lines).length - lines.length + 1) []
    rw [List.append_nil] at hall
    rw [show (lineChars lines).length + 1 =
      (lineChars lines).length - lines.length + 1 + lines.length by omega, hall]
    rfl
  rw [read?, htext]
  split
  · rename_i cs heq
    rw [heq, document_mark] at hlines
    cases hlines
  · rw [hlines]
    rfl

/-- **A printed document is read back.** -/
theorem read?_print? {entries : List (String × Value)} {text : String}
    (h : print? (.table entries) = some text) (hentries : Keeps entries) :
    read? text = some (.table (inToml entries)) := by
  obtain ⟨hnames, hkeeps⟩ := hentries
  rw [print?] at h
  simp only [Option.bind_eq_bind, Option.bind_eq_some_iff, Option.pure_def,
    Option.some.injEq] at h
  obtain ⟨own, hown, inner, hinner, rfl⟩ := h
  obtain ⟨hownNames, hallNames⟩ := nodup_names hnames
  have hfresh : Hole.Fresh [] := List.forall_mem_nil _
  have hownLines := reads_ownLines hown hkeeps hfresh ([] : Entries) hownNames
  obtain ⟨header, hinnerLines⟩ := reads_innerLines ([] : Hole) hinner hkeeps hfresh hallNames []
  have hall := hownLines.append hinnerLines
  by_cases hlines : own ++ inner = []
  · -- a document without any lines is a blank line
    rw [hlines] at hall ⊢
    exact read?_of_reads (lineChars_singleton "").symm ((Reads.blank [] []).append hall)
  · exact read?_of_reads (intercalate_toList hlines) hall

end Toml

end Document

end Lathe
