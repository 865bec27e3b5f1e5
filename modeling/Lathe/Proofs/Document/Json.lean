import Lathe.Proofs.Document.Numbers

/-!
# Printed JSON reads back

What is printed on indented lines is read back, but for what JSON has no form for: real numbers that
are not finite become `null`, dates become texts (`Value.losing`).  Whole numbers have to fit 64
bits, and finite real numbers have to be read back from their own text, which depends on rounding
(`Json.KeepsReal`).

* `Json.text_quoted` : a text reads back, whatever characters it has.
* `Json.list_bracketed`, `Json.table_bracketed` : lists and tables read back if their parts do.
* `Json.readsBack_printAt` : a value reads back in front of whatever may follow it.
* `Json.read?_pretty` : a document reads back.
-/

namespace Lathe

namespace Document

open Decimal

namespace Json

/-! ### Texts -/

theorem hexUnit?_hexPair : ∀ n < 32, ∃ a b, hexPair n = [a, b] ∧ hexUnit? '0' '0' a b = some n := by
  intro n hn
  have hall : ∀ n < 32, hexUnit? '0' '0' (Nat.digitChar (n / 16)) (Nat.digitChar (n % 16)) =
      some n := by decide
  exact ⟨_, _, rfl, hall n hn⟩

theorem scanText_plain (s : Scan) {c : Char} (hquote : c ≠ '"') (hslash : c ≠ '\\')
    (hc : 0x20 ≤ c.toNat) (cs : List Char) : scanText s (c :: cs) = scanText (s.push c) cs := by
  have hnot : ¬ (c.toNat < 0x20 ∨ c = '\\') := by
    rintro (h | h)
    · omega
    · exact hslash h
  rw [scanText.eq_def]
  split
  · rename_i heq
    cases heq
  · rename_i heq
    exact absurd (List.cons.inj heq).1 hquote
  · rename_i heq
    exact absurd (List.cons.inj heq).1 hslash
  · rename_i heq
    exact absurd (List.cons.inj heq).1 hslash
  · rename_i heq
    obtain ⟨rfl, rfl⟩ := List.cons.inj heq
    rw [if_neg hnot]

/-- One character is scanned as it was written. -/
theorem scanText_escaped (s : Scan) (c : Char) (cs : List Char) :
    scanText s (escaped c ++ cs) = scanText (s.push c) cs := by
  unfold escaped
  split_ifs with h₁ h₂ h₃ h₄ h₅ h₆ h₇ h₈
  · subst h₁; rfl
  · subst h₂; rfl
  · subst h₃; rfl
  · subst h₄; rfl
  · subst h₅; rfl
  · subst h₆; rfl
  · subst h₇; rfl
  · obtain ⟨a, b, hpair, hunit⟩ := hexUnit?_hexPair c.toNat h₈
    have hpush : s.pushUnit c.toNat = s.push c := by
      rw [Scan.pushUnit, if_neg (by omega), if_neg (by omega), Char.ofNat_toNat]
    rw [hpair]
    simp [scanText, hunit, hpush]
  · exact scanText_plain s h₁ h₂ (Nat.le_of_not_lt h₈) cs

theorem scanText_flatMap (s : Scan) (cs rest : List Char) :
    scanText s (cs.flatMap escaped ++ '"' :: rest) = some (cs.foldl Scan.push s, rest) := by
  induction cs generalizing s with
  | nil => simp [scanText]
  | cons c cs ih =>
    rw [List.flatMap_cons, List.append_assoc, scanText_escaped, ih]
    rfl

theorem foldl_push (done cs : List Char) :
    cs.foldl Scan.push ⟨done, none, true⟩ = ⟨cs.reverse ++ done, none, true⟩ := by
  induction cs generalizing done with
  | nil => rfl
  | cons c cs ih =>
    have hpush : Scan.push ⟨done, none, true⟩ c = ⟨c :: done, none, true⟩ := by simp [Scan.push]
    rw [List.foldl_cons, hpush, ih]
    simp

theorem quoted_toList (s : String) :
    (quoted s).toList = '"' :: (s.toList.flatMap escaped ++ ['"']) := by
  simp [quoted]

/-- **A text reads back after its opening quote.** -/
theorem text_quoted (s : String) (rest : List Char) :
    text (s.toList.flatMap escaped ++ '"' :: rest) = some (some s, rest) := by
  rw [text, scanText_flatMap, Scan.start, foldl_push]
  simp [Scan.text?]

end Json

/-! ### What JSON has a form for -/

mutual

/-- What is left of a value when some real numbers are lost and dates become texts. -/
def Value.losing (lost : Float → Bool) : Value → Value
  | .null | .unreadable => .null
  | .bool b => .bool b
  | .int n => .int n
  | .real x => if lost x then .null else .real x
  | .text s | .date s => .text s
  | .list items => .list (itemsLosing lost items)
  | .table entries => .table (entriesLosing lost entries)

/-- What is left of the items of a list. -/
def itemsLosing (lost : Float → Bool) : List Value → List Value
  | [] => []
  | v :: vs => v.losing lost :: itemsLosing lost vs

/-- What is left of the entries of a table. -/
def entriesLosing (lost : Float → Bool) : List (String × Value) → List (String × Value)
  | [] => []
  | (name, v) :: es => (name, v.losing lost) :: entriesLosing lost es

end

/-- JSON has no form for this real number. -/
def Json.loses (x : Float) : Bool := !x.isFinite

namespace Json

/-- A real number is read back from its own text. -/
def KeepsReal (x : Float) : Prop := read? (pretty (.real x)) = some (.real x)

theorem keepsReal_iff {x : Float} : KeepsReal x ↔
    (match read? (pretty (.real x)) with
      | some (.real y) => decide (y = x)
      | _ => false) = true := by
  unfold KeepsReal
  cases read? (pretty (.real x)) with
  | none => simp
  | some v => cases v <;> simp

instance (x : Float) : Decidable (KeepsReal x) := decidable_of_iff _ keepsReal_iff.symm

mutual

/-- The numbers of a value are read back: whole ones fit 64 bits, and finite real ones survive. -/
def Keeps : Value → Prop
  | .int n => -Nat.pow 2 63 ≤ n ∧ n < Nat.pow 2 64
  | .real x => x.isFinite = true → KeepsReal x
  | .list items => KeepsItems items
  | .table entries => KeepsEntries entries
  | .null | .unreadable | .bool _ | .text _ | .date _ => True

/-- So are those of the items of a list. -/
def KeepsItems : List Value → Prop
  | [] => True
  | v :: vs => Keeps v ∧ KeepsItems vs

/-- So are those of the entries of a table. -/
def KeepsEntries : List (String × Value) → Prop
  | [] => True
  | (_, v) :: es => Keeps v ∧ KeepsEntries es

end

theorem keeps_table_iff {entries : List (String × Value)} :
    Keeps (.table entries) ↔ ∀ e ∈ entries, Keeps e.2 := by
  rw [Keeps]
  induction entries with
  | nil => simp [KeepsEntries]
  | cons e es ih => rw [KeepsEntries, ih, List.forall_mem_cons]

/-! ### Blanks -/

/-- A new line at a depth. -/
def lineBreak (depth : Nat) : List Char := '\n' :: List.replicate (2 * depth) ' '

theorem newline_toList (depth : Nat) : (Spacing.lined.newline depth).toList = lineBreak depth := by
  simp [Spacing.lined, lineBreak]

theorem skipBlanks_lineBreak (depth : Nat) {c : Char} (hc : isBlank c = false) (cs : List Char) :
    skipBlanks (lineBreak depth ++ c :: cs) = c :: cs := by
  have hblank : ∀ b ∈ lineBreak depth, isBlank b = true := by
    intro b hb
    obtain rfl | hb := List.mem_cons.1 hb
    · rfl
    · rw [List.eq_of_mem_replicate hb]
      rfl
  rw [skipBlanks, List.dropWhile_append_of_pos hblank, List.dropWhile_cons_of_neg (by simp [hc])]

/-- A text that begins like a value: neither with a blank nor with a closing bracket. -/
def StartsValue (text : String) : Prop :=
  ∃ c cs, text.toList = c :: cs ∧ isBlank c = false ∧ c ≠ ']' ∧ c ≠ '}'

theorem StartsValue.skipBlanks {text : String} (h : StartsValue text) (rest : List Char) :
    skipBlanks (text.toList ++ rest) = text.toList ++ rest := by
  obtain ⟨c, cs, htext, hc, -⟩ := h
  rw [htext, List.cons_append, Json.skipBlanks, List.dropWhile_cons_of_neg (by simp [hc])]

theorem StartsValue.skipBlanks_lineBreak {text : String} (h : StartsValue text) (depth : Nat)
    (rest : List Char) :
    Json.skipBlanks (lineBreak depth ++ (text.toList ++ rest)) = text.toList ++ rest := by
  obtain ⟨c, cs, htext, hc, -⟩ := h
  rw [htext, List.cons_append]
  exact Json.skipBlanks_lineBreak depth hc _

/-! ### Lists and tables -/

/-- The parts after the first one, each after a comma on a line of its own, and what follows. -/
def moreParts (depth : Nat) (parts : List String) (rest : List Char) : List Char :=
  (parts.flatMap fun part => ',' :: (lineBreak (depth + 1) ++ part.toList)) ++
    (lineBreak depth ++ rest)

theorem moreParts_cons (depth : Nat) (part : String) (parts : List String) (rest : List Char) :
    moreParts depth (part :: parts) rest =
      ',' :: (lineBreak (depth + 1) ++ (part.toList ++ moreParts depth parts rest)) := by
  simp [moreParts]

theorem endsValue_moreParts (depth : Nat) (parts : List String) (rest : List Char) :
    EndsValue (moreParts depth parts rest) := by
  intro c hc
  cases parts with
  | nil => exact .inr (by simpa [moreParts, lineBreak] using hc.symm)
  | cons part parts => exact .inl (by simpa [moreParts] using hc.symm)

theorem opening_bracket : "[".toList = ['['] := rfl

theorem closing_bracket : "]".toList = [']'] := rfl

theorem opening_brace : "\x7b".toList = ['{'] := rfl

theorem closing_brace : "\x7d".toList = ['}'] := rfl

/-- Parts in brackets, with what follows. -/
theorem bracketed_toList (depth : Nat) {opening closing : String} {o c : Char}
    (ho : opening.toList = [o]) (hc : closing.toList = [c]) (part : String)
    (parts : List String) (rest : List Char) :
    (bracketed .lined depth opening closing (part :: parts)).toList ++ rest =
      o :: (lineBreak (depth + 1) ++ (part.toList ++ moreParts depth parts (c :: rest))) := by
  have hparts : ∀ part, (("," ++ Spacing.lined.newline (depth + 1)).intercalate
      (part :: parts)).toList = part.toList ++
        parts.flatMap fun part => ',' :: (lineBreak (depth + 1) ++ part.toList) := by
    intro part
    rw [String.toList_intercalate, List.map_cons]
    induction parts generalizing part with
    | nil => simp
    | cons p ps ih =>
      rw [List.map_cons, List.intercalate_cons_cons, ih p]
      simp [← newline_toList]
  simp only [bracketed, List.isEmpty_cons, Bool.false_eq_true, if_false, String.toList_append,
    hparts, newline_toList, moreParts, ho, hc]
  simp

theorem le_length_moreParts (depth : Nat) (parts : List String) (rest : List Char) :
    parts.length ≤ (moreParts depth parts rest).length ∧
      ∀ part ∈ parts, part.length ≤ (moreParts depth parts rest).length := by
  induction parts with
  | nil => simp
  | cons part parts ih =>
    obtain ⟨hlength, hparts⟩ := ih
    rw [moreParts_cons]
    simp only [List.length_cons, List.length_append, List.forall_mem_cons, String.length_toList]
    refine ⟨by omega, by omega, fun p hp => ?_⟩
    have := hparts p hp
    omega

theorem lt_length_bracketed (depth : Nat) {opening closing : String} {o c : Char}
    (ho : opening.toList = [o]) (hc : closing.toList = [c]) (parts : List String) :
    parts.length < (bracketed .lined depth opening closing parts).length ∧
      ∀ part ∈ parts, part.length < (bracketed .lined depth opening closing parts).length := by
  cases parts with
  | nil => simp [bracketed, ← String.length_toList, ho, hc]
  | cons part parts =>
    obtain ⟨hlength, hparts⟩ := le_length_moreParts depth parts [c]
    have htext := congrArg List.length (bracketed_toList depth ho hc part parts [])
    simp only [List.append_nil, List.length_cons, List.length_append, String.length_toList]
      at htext
    have hbreak : (lineBreak (depth + 1)).length = 2 * (depth + 1) + 1 := by simp [lineBreak]
    rw [htext]
    simp only [List.length_cons, List.forall_mem_cons]
    refine ⟨by omega, by omega, fun p hp => ?_⟩
    have := hparts p hp
    omega

/-- A printed value is read back in front of whatever may follow it. -/
def ReadsBack (bound : Nat) (text : String) (v : Value) : Prop :=
  StartsValue text ∧ ∀ rest, EndsValue rest → value bound (text.toList ++ rest) = some (v, rest)

theorem moreItems_moreParts {bound n : Nat} (depth : Nat) {parts : List String}
    {items : List Value} (h : List.Forall₂ (ReadsBack bound) parts items) (done : List Value)
    (hn : parts.length < n) (rest : List Char) :
    moreItems (value bound) done n (moreParts depth parts (']' :: rest)) =
      some (.list (done.reverse ++ items), rest) := by
  induction h generalizing n done with
  | nil =>
    obtain ⟨n, rfl⟩ := Nat.exists_eq_succ_of_ne_zero (Nat.ne_of_gt hn)
    have hblanks : skipBlanks (moreParts depth [] (']' :: rest)) = ']' :: rest :=
      skipBlanks_lineBreak depth rfl rest
    simp [moreItems, hblanks]
  | @cons part item parts items hpart hparts ih =>
    obtain ⟨n, rfl⟩ := Nat.exists_eq_succ_of_ne_zero (Nat.ne_of_gt (Nat.zero_lt_of_lt hn))
    obtain ⟨hstarts, hreads⟩ := hpart
    have hvalue := hreads _ (endsValue_moreParts depth parts (']' :: rest))
    have hmore := ih (item :: done) (Nat.lt_of_succ_lt_succ hn)
    have hcomma : ∀ cs, skipBlanks (',' :: cs) = ',' :: cs := fun _ => rfl
    rw [moreParts_cons, moreItems, hcomma]
    simp only [hstarts.skipBlanks_lineBreak, hvalue, hmore, List.reverse_cons, List.append_assoc,
      List.singleton_append]

/-- **A printed list is read back if its items are.** -/
theorem list_bracketed {bound depth : Nat} {parts : List String} {items : List Value}
    (h : List.Forall₂ (ReadsBack bound) parts items) (hbound : parts.length ≤ bound)
    (rest : List Char) :
    value (bound + 1) ((bracketed .lined depth "[" "]" parts).toList ++ rest) =
      some (.list items, rest) := by
  cases h with
  | nil =>
    have htext : (bracketed .lined depth "[" "]" []).toList = ['[', ']'] := by simp [bracketed]
    rw [htext]
    rfl
  | @cons part item parts items hpart hparts =>
    obtain ⟨hstarts, hreads⟩ := hpart
    have hvalue := hreads _ (endsValue_moreParts depth parts (']' :: rest))
    have hmore := moreItems_moreParts depth hparts [item] hbound rest
    have htext := bracketed_toList depth opening_bracket closing_bracket part parts rest
    have hskip := hstarts.skipBlanks_lineBreak (depth + 1) (moreParts depth parts (']' :: rest))
    obtain ⟨c, cs, hpart, -, hclosing, -⟩ := hstarts
    rw [htext, value, list, hskip]
    rw [hpart, List.cons_append] at hvalue ⊢
    split
    · rename_i heq
      exact absurd (List.cons.inj heq).1 hclosing
    · rw [hvalue]
      exact hmore

/-- A printed entry is read back in front of whatever may follow it. -/
def EntryReadsBack (bound : Nat) (text : String) (e : String × Value) : Prop :=
  StartsValue text ∧ ∀ rest, EndsValue rest →
    entry (value bound) (text.toList ++ rest) = some ((some e.1, e.2), rest)

theorem tableOf_eq {done : List (Option String × Value)} {es : List (String × Value)}
    (h : done.reverse = es.map fun e => (some e.1, e.2)) : tableOf done = .table es := by
  have hall : ∀ es : List (String × Value), (es.map fun e => (some e.1, e.2)).mapM
      (fun (e : Option String × Value) => e.1.map (·, e.2)) = some es := by
    intro es
    induction es with
    | nil => rfl
    | cons e es ih => rw [List.map_cons, List.mapM_cons, ih]; rfl
  rw [tableOf, h, hall]

theorem moreEntries_moreParts {bound n : Nat} (depth : Nat) {parts : List String}
    {entries : List (String × Value)} (h : List.Forall₂ (EntryReadsBack bound) parts entries)
    {done : List (Option String × Value)} {es : List (String × Value)}
    (hdone : done.reverse = es.map fun e => (some e.1, e.2)) (hn : parts.length < n)
    (rest : List Char) :
    moreEntries (value bound) done n (moreParts depth parts ('}' :: rest)) =
      some (.table (es ++ entries), rest) := by
  induction h generalizing n done es with
  | nil =>
    obtain ⟨n, rfl⟩ := Nat.exists_eq_succ_of_ne_zero (Nat.ne_of_gt hn)
    have hblanks : skipBlanks (moreParts depth [] ('}' :: rest)) = '}' :: rest :=
      skipBlanks_lineBreak depth rfl rest
    simp [moreEntries, hblanks, tableOf_eq hdone]
  | @cons part e parts entries hpart hparts ih =>
    obtain ⟨n, rfl⟩ := Nat.exists_eq_succ_of_ne_zero (Nat.ne_of_gt (Nat.zero_lt_of_lt hn))
    obtain ⟨hstarts, hreads⟩ := hpart
    have hentry := hreads _ (endsValue_moreParts depth parts ('}' :: rest))
    have hnext : ((some e.1, e.2) :: done).reverse = (es ++ [e]).map fun e => (some e.1, e.2) := by
      simp [hdone]
    have hmore := ih hnext (Nat.lt_of_succ_lt_succ hn)
    have hcomma : ∀ cs, skipBlanks (',' :: cs) = ',' :: cs := fun _ => rfl
    rw [moreParts_cons, moreEntries, hcomma]
    simp only [hstarts.skipBlanks_lineBreak, hentry, hmore, List.append_assoc,
      List.singleton_append]

/-- **A printed table is read back if its entries are.** -/
theorem table_bracketed {bound depth : Nat} {parts : List String} {entries : List (String × Value)}
    (h : List.Forall₂ (EntryReadsBack bound) parts entries) (hbound : parts.length ≤ bound)
    (rest : List Char) :
    value (bound + 1) ((bracketed .lined depth "\x7b" "\x7d" parts).toList ++ rest) =
      some (.table entries, rest) := by
  cases h with
  | nil =>
    have htext : (bracketed .lined depth "\x7b" "\x7d" []).toList = ['{', '}'] := by
      simp [bracketed]
    rw [htext]
    rfl
  | @cons part e parts entries hpart hparts =>
    obtain ⟨hstarts, hreads⟩ := hpart
    have hentry := hreads _ (endsValue_moreParts depth parts ('}' :: rest))
    have hdone : [(some e.1, e.2)].reverse = [e].map fun e => (some e.1, e.2) := rfl
    have hmore := moreEntries_moreParts depth hparts hdone hbound rest
    have htext := bracketed_toList depth opening_brace closing_brace part parts rest
    have hskip := hstarts.skipBlanks_lineBreak (depth + 1) (moreParts depth parts ('}' :: rest))
    obtain ⟨c, cs, hpart, -, -, hclosing⟩ := hstarts
    rw [htext, value, table, hskip]
    rw [hpart, List.cons_append] at hentry ⊢
    split
    · rename_i heq
      exact absurd (List.cons.inj heq).1 hclosing
    · rw [hentry]
      exact hmore

/-- An entry is read back if its value is. -/
theorem ReadsBack.entry {bound : Nat} {text : String} {v : Value} (h : ReadsBack bound text v)
    (name : String) :
    EntryReadsBack bound (quoted name ++ Spacing.lined.colon ++ text) (name, v) := by
  have hchars : ∀ rest, (quoted name ++ Spacing.lined.colon ++ text).toList ++ rest =
      '"' :: (name.toList.flatMap escaped ++ '"' :: ':' :: ' ' :: (text.toList ++ rest)) := by
    intro rest
    simp [quoted_toList, Spacing.lined]
  refine ⟨⟨'"', _, by simpa using hchars [], rfl, by decide, by decide⟩, ?_⟩
  intro rest hrest
  obtain ⟨hstarts, hreads⟩ := h
  have hcolon : ∀ cs, skipBlanks (':' :: cs) = ':' :: cs := fun _ => rfl
  have hspace : skipBlanks (' ' :: (text.toList ++ rest)) = text.toList ++ rest :=
    hstarts.skipBlanks rest
  rw [hchars, Json.entry, text_quoted]
  simp [hcolon, hspace, hreads rest hrest]

/-! ### Values -/

theorem value_of_number {bound : Nat} {c : Char} {cs : List Char}
    (hc : c.isDigit = true ∨ c = '-') :
    value (bound + 1) (c :: cs) = (number (c :: cs)).map fun (n, rest) => (n.value, rest) := by
  rw [value.eq_def]
  split
  · simp_all
  · dsimp only
    split <;> simp_all

/-- A written number is read back as what its pieces stand for. -/
theorem readsBack_chars (bound : Nat) {text : String} (t : Written) (ht : t.Proper)
    (htext : text.toList = t.chars) : ReadsBack (bound + 1) text (Number.ofWritten t).value := by
  obtain ⟨c, cs, hchars, hc⟩ := ht.exists_chars
  have hstarts : isBlank c = false ∧ c ≠ ']' ∧ c ≠ '}' := by
    refine ⟨?_, ?_, ?_⟩
    · simp only [isBlank, Bool.or_eq_false_iff, decide_eq_false_iff_not]
      refine ⟨⟨⟨?_, ?_⟩, ?_⟩, ?_⟩ <;> rintro rfl <;> simp at hc
    · rintro rfl
      simp at hc
    · rintro rfl
      simp at hc
  refine ⟨⟨c, cs, htext.trans hchars, hstarts⟩, ?_⟩
  intro rest hrest
  have hnumber := number_chars t ht hrest
  rw [htext, hchars, List.cons_append] at *
  rw [value_of_number hc, hnumber]
  rfl

/-- A text that reads back as a value is read as it. -/
theorem ReadsBack.read? {text : String} {v : Value} (h : ReadsBack (text.length + 1) text v) :
    Json.read? text = some v := by
  obtain ⟨hstarts, hreads⟩ := h
  have hskip := hstarts.skipBlanks []
  have hvalue := hreads [] (by simp [EndsValue])
  rw [List.append_nil] at hskip hvalue
  rw [Json.read?, hskip, String.length_toList, hvalue]
  rfl

theorem readsBack_null (bound : Nat) : ReadsBack (bound + 1) "null" .null :=
  ⟨⟨'n', _, rfl, rfl, by decide, by decide⟩, fun rest _ => rfl⟩

/-- A real number is read back unless it is not finite, which leaves no value. -/
theorem readsBack_real {bound : Nat} {x : Float} (h : x.isFinite = true → KeepsReal x) :
    ReadsBack (bound + 1) (realLayout.write x) ((Value.real x).losing loses) := by
  by_cases hx : x.isFinite = true
  · obtain ⟨t, ht, -, htext⟩ := realLayout.exists_write rfl hx
    have hvalue : some (Number.ofWritten t).value = some (.real x) :=
      (readsBack_chars _ t ht htext).read?.symm.trans (h hx)
    rw [Value.losing, if_neg (by simp [loses, hx]), ← Option.some.inj hvalue]
    exact readsBack_chars bound t ht htext
  · have htext : realLayout.write x = "null" := by
      unfold Layout.write
      cases hbinary : Binary.ofFloat x with
      | finite negative m q => exact absurd ((isFinite_iff x).2 ⟨negative, m, q, hbinary⟩) hx
      | infinite negative => simp [realLayout]
      | notANumber => rfl
    rw [Value.losing, if_pos (by simpa [loses] using hx), htext]
    exact readsBack_null bound

theorem readsBack_bool (bound : Nat) (b : Bool) :
    ReadsBack (bound + 1) (if b then "true" else "false") (.bool b) := by
  cases b with
  | true => exact ⟨⟨'t', _, rfl, rfl, by decide, by decide⟩, fun rest _ => rfl⟩
  | false => exact ⟨⟨'f', _, rfl, rfl, by decide, by decide⟩, fun rest _ => rfl⟩

theorem readsBack_intText (bound : Nat) {n : Int} (h : Keeps (.int n)) :
    ReadsBack (bound + 1) (intText n) (.int n) := by
  have hread := readsBack_chars bound _ (Written.proper_ofInt n) (intText_toList n)
  rwa [value_ofInt h.1 h.2] at hread

theorem readsBack_quoted {bound : Nat} (s : String) :
    ReadsBack (bound + 1) (quoted s) (.text s) := by
  refine ⟨⟨'"', _, quoted_toList s, rfl, by decide, by decide⟩, ?_⟩
  intro rest _
  have hchars : (quoted s).toList ++ rest = '"' :: (s.toList.flatMap escaped ++ '"' :: rest) := by
    simp [quoted_toList]
  rw [hchars, value, text_quoted]
  rfl

theorem startsValue_bracketed (depth : Nat) {opening closing : String} {o c : Char}
    (ho : opening.toList = [o]) (hc : closing.toList = [c]) (parts : List String)
    (h : isBlank o = false ∧ o ≠ ']' ∧ o ≠ '}') :
    StartsValue (bracketed .lined depth opening closing parts) := by
  cases parts with
  | nil => exact ⟨o, [c], by simp [bracketed, ho, hc], h⟩
  | cons part parts =>
    have htext := bracketed_toList depth ho hc part parts []
    rw [List.append_nil] at htext
    exact ⟨o, _, htext, h⟩

mutual

/-- **A printed value is read back in front of whatever may follow it.** -/
theorem readsBack_printAt (v : Value) (depth : Nat) (hv : Keeps v) {bound : Nat}
    (hbound : (printAt .lined depth v).length < bound) :
    ReadsBack bound (printAt .lined depth v) (v.losing loses) := by
  obtain ⟨bound, rfl⟩ := Nat.exists_eq_succ_of_ne_zero (Nat.ne_of_gt (Nat.zero_lt_of_lt hbound))
  have hle := Nat.le_of_lt_succ hbound
  cases v with
  | null | unreadable => exact readsBack_null bound
  | bool b => exact readsBack_bool bound b
  | int n => exact readsBack_intText bound hv
  | real x => exact readsBack_real hv
  | text s | date s => exact readsBack_quoted s
  | list items =>
    rw [printAt] at hle ⊢
    obtain ⟨hlength, hparts⟩ :=
      lt_length_bracketed depth opening_bracket closing_bracket (printItems .lined depth items)
    have hitems := forall₂_printItems items depth hv fun part hp =>
      Nat.lt_of_lt_of_le (hparts part hp) hle
    have hcount := Nat.le_of_lt (Nat.lt_of_lt_of_le hlength hle)
    have hstarts := startsValue_bracketed depth opening_bracket closing_bracket
      (printItems .lined depth items) ⟨rfl, by decide, by decide⟩
    exact ⟨hstarts, fun rest _ => list_bracketed hitems hcount rest⟩
  | table entries =>
    rw [printAt] at hle ⊢
    obtain ⟨hlength, hparts⟩ :=
      lt_length_bracketed depth opening_brace closing_brace (printEntries .lined depth entries)
    have hentries := forall₂_printEntries entries depth hv fun part hp =>
      Nat.lt_of_lt_of_le (hparts part hp) hle
    have hcount := Nat.le_of_lt (Nat.lt_of_lt_of_le hlength hle)
    have hstarts := startsValue_bracketed depth opening_brace closing_brace
      (printEntries .lined depth entries) ⟨rfl, by decide, by decide⟩
    exact ⟨hstarts, fun rest _ => table_bracketed hentries hcount rest⟩

theorem forall₂_printItems (items : List Value) (depth : Nat) (hitems : KeepsItems items)
    {bound : Nat} (hbound : ∀ part ∈ printItems .lined depth items, part.length < bound) :
    List.Forall₂ (ReadsBack bound) (printItems .lined depth items) (itemsLosing loses items) := by
  match items with
  | [] => exact .nil
  | v :: vs =>
    obtain ⟨hv, hvs⟩ := hitems
    obtain ⟨hfirst, hmore⟩ := List.forall_mem_cons.1 hbound
    exact .cons (readsBack_printAt v (depth + 1) hv hfirst)
      (forall₂_printItems vs depth hvs hmore)

theorem forall₂_printEntries (entries : List (String × Value)) (depth : Nat)
    (hentries : KeepsEntries entries) {bound : Nat}
    (hbound : ∀ part ∈ printEntries .lined depth entries, part.length < bound) :
    List.Forall₂ (EntryReadsBack bound) (printEntries .lined depth entries)
      (entriesLosing loses entries) := by
  match entries with
  | [] => exact .nil
  | (name, v) :: es =>
    obtain ⟨hv, hes⟩ := hentries
    obtain ⟨hfirst, hmore⟩ := List.forall_mem_cons.1 hbound
    have hlength : (printAt .lined (depth + 1) v).length < bound := by
      simp only [String.length_append] at hfirst
      omega
    exact .cons ((readsBack_printAt v (depth + 1) hv hlength).entry name)
      (forall₂_printEntries es depth hes hmore)

end

/-- **A printed document is read back.** -/
theorem read?_pretty {v : Value} (hv : Keeps v) : read? (pretty v) = some (v.losing loses) :=
  (readsBack_printAt v 0 hv (Nat.lt_succ_self _)).read?

end Json

end Document

end Lathe
