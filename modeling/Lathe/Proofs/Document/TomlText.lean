import Lathe.Proofs.Document.Numbers

/-!
# Printed TOML values read back

Texts, names and the values that stand on one line.  What is printed is read back in front of
whatever may follow it: a value before the end of its line, a name before a blank, a point or a
closing bracket.

* `Toml.text_quoted`, `Toml.names_writtenKey` : texts and keys read back, whatever characters they
  have.
* `Toml.readsBack_inline` : truth values, whole numbers, texts, and real numbers that are read back
  from their own text (`Toml.KeepsReal`).
-/

namespace Lathe

namespace Document

open Decimal

namespace Toml

/-! ### Texts -/

theorem hexChar?_hexPair :
    ∀ n < 128, hexChar? (['0', '0'] ++ Json.hexPair n) = some (Char.ofNat n) := by
  decide

theorem escaped_hexPair {n : Nat} (hn : n < 128) (cs : List Char) :
    escaped (['u', '0', '0'] ++ Json.hexPair n ++ cs) = some (Char.ofNat n, cs) := by
  have hchar := hexChar?_hexPair n hn
  simp only [Json.hexPair, List.cons_append, List.nil_append] at hchar ⊢
  simp [escaped, hchar]

theorem lineText_backslash (x : Char) (done bound : List Char) {cs rest : List Char} {c : Char}
    (h : escaped cs = some (c, rest)) :
    lineText '"' false done (x :: bound) ('\\' :: cs) =
      lineText '"' false (c :: done) bound rest := by
  simp [lineText, h]

theorem lineText_plain (x : Char) (done bound : List Char) {c : Char} (hquote : c ≠ '"')
    (hslash : c ≠ '\\') (hlow : 0x20 ≤ c.toNat) (hdel : c.toNat ≠ 0x7F) (cs : List Char) :
    lineText '"' false done (x :: bound) (c :: cs) = lineText '"' false (c :: done) bound cs := by
  have hprintable : isPrintable c = true := by simp [isPrintable, hlow, hdel]
  simp [lineText, hquote, hslash, hprintable]

/-- One character is scanned as it was written. -/
theorem lineText_writtenChar (x c : Char) (done bound cs : List Char) :
    lineText '"' false done (x :: bound) (writtenChar c ++ cs) =
      lineText '"' false (c :: done) bound cs := by
  unfold writtenChar Json.escaped
  split_ifs with h h₁ h₂ h₃ h₄ h₅ h₆ h₇ h₈
  · have hchar := escaped_hexPair (n := c.toNat) (by omega) cs
    rw [Char.ofNat_toNat, h] at hchar
    exact lineText_backslash x done bound hchar
  · subst h₁; exact lineText_backslash x done bound rfl
  · subst h₂; exact lineText_backslash x done bound rfl
  · subst h₃; exact lineText_backslash x done bound rfl
  · subst h₄; exact lineText_backslash x done bound rfl
  · subst h₅; exact lineText_backslash x done bound rfl
  · subst h₆; exact lineText_backslash x done bound rfl
  · subst h₇; exact lineText_backslash x done bound rfl
  · have hchar := escaped_hexPair (n := c.toNat) (by omega) cs
    rw [Char.ofNat_toNat] at hchar
    exact lineText_backslash x done bound hchar
  · exact lineText_plain x done bound h₁ h₂ (Nat.le_of_not_lt h₈) h cs

theorem lineText_flatMap (s done : List Char) {bound : List Char} (hbound : s.length < bound.length)
    (rest : List Char) :
    lineText '"' false done bound (s.flatMap writtenChar ++ '"' :: rest) =
      some (String.ofList (done.reverse ++ s), rest) := by
  induction s generalizing done bound with
  | nil =>
    obtain ⟨x, bound, rfl⟩ := List.exists_cons_of_length_pos hbound
    simp [lineText]
  | cons c s ih =>
    obtain ⟨x, bound, rfl⟩ := List.exists_cons_of_length_pos (Nat.zero_lt_of_lt hbound)
    rw [List.flatMap_cons, List.append_assoc, lineText_writtenChar,
      ih (c :: done) (Nat.lt_of_succ_lt_succ hbound)]
    simp

theorem length_le_flatMap (s : List Char) : s.length ≤ (s.flatMap writtenChar).length := by
  have hpos : ∀ c, 1 ≤ (writtenChar c).length := by
    intro c
    unfold writtenChar Json.escaped
    split_ifs <;> simp
  induction s with
  | nil => simp
  | cons c s ih =>
    have := hpos c
    simp only [List.flatMap_cons, List.length_append, List.length_cons]
    omega

/-- **A text reads back after its opening quote.** -/
theorem line_quoted (s : String) (rest : List Char) :
    line '"' false (s.toList.flatMap writtenChar ++ '"' :: rest) = some (s, rest) := by
  have hle := length_le_flatMap s.toList
  have hbound : s.toList.length < (s.toList.flatMap writtenChar ++ '"' :: rest).length := by
    simp only [List.length_append, List.length_cons]
    omega
  rw [line, lineText_flatMap s.toList [] hbound]
  simp

theorem quoted_append (s : String) (rest : List Char) :
    (quoted s).toList ++ rest = '"' :: (s.toList.flatMap writtenChar ++ '"' :: rest) := by
  simp [quoted]

/-- What is written of a character does not start with a quote. -/
theorem head?_writtenChar (c : Char) (cs : List Char) :
    ∃ d ds, writtenChar c ++ cs = d :: ds ∧ d ≠ '"' := by
  unfold writtenChar Json.escaped
  split_ifs with h h₁
  all_goals first
    | exact ⟨_, _, rfl, by decide⟩
    | exact ⟨_, _, rfl, h₁⟩

/-- A quoted text is not taken for a text in three quotes. -/
theorem text_quoted (s : String) {rest : List Char} (hrest : EndsValue rest) :
    text ((quoted s).toList ++ rest) = some (s, rest) := by
  have hline := line_quoted s rest
  rw [quoted_append]
  cases hs : s.toList with
  | nil =>
    rw [hs] at hline
    cases rest with
    | nil => simpa [text] using hline
    | cons c cs =>
      rcases hrest c rfl with rfl | rfl
      · simpa [text] using hline
      · simpa [text] using hline
  | cons c cs =>
    obtain ⟨d, ds, hchars, hd⟩ := head?_writtenChar c (cs.flatMap writtenChar ++ '"' :: rest)
    rw [hs, List.flatMap_cons, List.append_assoc, hchars] at hline
    rw [List.flatMap_cons, List.append_assoc, hchars, text.eq_def]
    split <;> simp_all

/-! ### Keys -/

/-- What a name starts with. -/
def StartsName (c : Char) : Prop := isBare c = true ∨ c = '"'

theorem StartsName.ne {c d : Char} (h : StartsName c) (hd : isBare d = false) (hquote : d ≠ '"') :
    c ≠ d := by
  rintro rfl
  rcases h with h | h
  · rw [h] at hd
    cases hd
  · exact hquote h

theorem StartsName.isBlank {c : Char} (h : StartsName c) : isBlank c = false := by
  simp [Toml.isBlank, h.ne (d := ' ') (by decide) (by decide),
    h.ne (d := '\t') (by decide) (by decide)]

theorem exists_writtenName (s : String) :
    ∃ c cs, (writtenName s).toList = c :: cs ∧ StartsName c := by
  unfold writtenName
  split_ifs with h
  · obtain ⟨hne, hall⟩ := h
    obtain ⟨c, cs, hs⟩ := List.exists_cons_of_ne_nil (mt String.toList_eq_nil_iff.1 hne)
    rw [hs, List.all_cons, Bool.and_eq_true] at hall
    exact ⟨c, cs, hs, .inl hall.1⟩
  · exact ⟨'"', _, by simpa using quoted_append s [], .inr rfl⟩

theorem skipBlanks_writtenName (s : String) (rest : List Char) :
    skipBlanks ((writtenName s).toList ++ rest) = (writtenName s).toList ++ rest := by
  obtain ⟨c, cs, hs, hc⟩ := exists_writtenName s
  rw [hs, List.cons_append, skipBlanks, List.dropWhile_cons_of_neg (by simp [hc.isBlank])]

theorem name_bare {bare rest : List Char} (hne : bare ≠ []) (hbare : ∀ c ∈ bare, isBare c = true)
    (hrest : ∀ c ∈ rest.head?, isBare c = false) :
    name (bare ++ rest) = some (String.ofList bare, rest) := by
  obtain ⟨htake, hdrop⟩ := span_append hbare hrest
  obtain ⟨c, cs, rfl⟩ := List.exists_cons_of_ne_nil hne
  have hc : isBare c = true := hbare c List.mem_cons_self
  unfold name
  split
  · rename_i heq
    rw [(List.cons.inj heq).1] at hc
    cases hc
  · rename_i heq
    rw [(List.cons.inj heq).1] at hc
    cases hc
  · rw [htake, hdrop]

/-- A name is read back before a character that is not part of it. -/
theorem name_writtenName (s : String) {rest : List Char}
    (hrest : ∀ c ∈ rest.head?, isBare c = false) :
    name ((writtenName s).toList ++ rest) = some (s, rest) := by
  unfold writtenName
  split_ifs with h
  · obtain ⟨hne, hall⟩ := h
    rw [name_bare (mt String.toList_eq_nil_iff.1 hne) (List.all_eq_true.1 hall) hrest,
      String.ofList_toList]
  · rw [quoted_append, name, line_quoted]

/-- A key as it is written. -/
def writtenKey (path : List String) : String := ".".intercalate (path.map writtenName)

theorem writtenKey_cons_cons (k k' : String) (path : List String) :
    (writtenKey (k :: k' :: path)).toList =
      (writtenName k).toList ++ '.' :: (writtenKey (k' :: path)).toList := by
  simp [writtenKey, String.toList_intercalate]

theorem exists_writtenKey {path : List String} (hpath : path ≠ []) :
    ∃ c cs, (writtenKey path).toList = c :: cs ∧ StartsName c := by
  obtain ⟨k, path, rfl⟩ := List.exists_cons_of_ne_nil hpath
  obtain ⟨c, cs, hk, hc⟩ := exists_writtenName k
  cases path with
  | nil => exact ⟨c, cs, by simpa [writtenKey] using hk, hc⟩
  | cons k' path => exact ⟨c, _, by rw [writtenKey_cons_cons, hk]; rfl, hc⟩

theorem names_writtenKey {path : List String} (hpath : path ≠ []) {n : Nat} (hn : path.length ≤ n)
    {rest : List Char} (hrest : ∀ c ∈ rest.head?, isBare c = false)
    (hpoint : ∀ c ∈ (skipBlanks rest).head?, c ≠ '.') :
    names n ((writtenKey path).toList ++ rest) = some (path, skipBlanks rest) := by
  induction path generalizing n with
  | nil => exact absurd rfl hpath
  | cons k path ih =>
    obtain ⟨n, rfl⟩ := Nat.exists_eq_succ_of_ne_zero (Nat.ne_of_gt (Nat.zero_lt_of_lt hn))
    cases path with
    | nil =>
      have hkey : (writtenKey [k]).toList = (writtenName k).toList := by simp [writtenKey]
      rw [hkey, names, skipBlanks_writtenName, name_writtenName k hrest]
      dsimp only
      cases hnext : skipBlanks rest with
      | nil => rfl
      | cons c cs =>
        have hc := hpoint c (by simp [hnext])
        split <;> simp_all
    | cons k' path =>
      have hmore := ih (by simp) (Nat.le_of_succ_le_succ hn)
      have hdot : ∀ c ∈ ('.' :: ((writtenKey (k' :: path)).toList ++ rest)).head?,
          isBare c = false := by
        intro c hc
        obtain rfl : '.' = c := by simpa using hc
        rfl
      have hskip : ∀ cs, skipBlanks ('.' :: cs) = '.' :: cs := fun _ => rfl
      rw [writtenKey_cons_cons, List.append_assoc, List.cons_append, names,
        skipBlanks_writtenName, name_writtenName k hdot]
      simp [hskip, hmore]

/-! ### Values on one line -/

/-- A real number is read back from its own text. -/
def KeepsReal (x : Float) : Prop := scalar (realLayout.write x).toList = some (.real x, [])

theorem keepsReal_iff {x : Float} : KeepsReal x ↔
    (match scalar (realLayout.write x).toList with
      | some (.real y, rest) => decide (y = x) && rest.isEmpty
      | _ => false) = true := by
  unfold KeepsReal
  cases scalar (realLayout.write x).toList with
  | none => simp
  | some r =>
    obtain ⟨v, rest⟩ := r
    cases v <;> simp

instance (x : Float) : Decidable (KeepsReal x) := decidable_of_iff _ keepsReal_iff.symm

/-- What a number starts with: a digit, a sign or the name of a value that is not finite. -/
def StartsNumber (c : Char) : Prop := c.isDigit = true ∨ c = '-' ∨ c = 'i' ∨ c = 'n'

theorem StartsNumber.ne {c d : Char} (h : StartsNumber c) (hd : d.isDigit = false)
    (hnot : d ≠ '-' ∧ d ≠ 'i' ∧ d ≠ 'n') : c ≠ d := by
  rintro rfl
  obtain ⟨hminus, hinf, hnan⟩ := hnot
  rcases h with h | h | h | h
  · rw [h] at hd
    cases hd
  · exact hminus h
  · exact hinf h
  · exact hnan h

theorem value_of_startsNumber (depth : Nat) {c : Char} (hc : StartsNumber c) (cs : List Char) :
    value (depth + 1) (c :: cs) = scalar (c :: cs) := by
  have hquote := hc.ne (d := '"') (by decide) (by decide)
  have hmark := hc.ne (d := '\'') (by decide) (by decide)
  have hbracket := hc.ne (d := '[') (by decide) (by decide)
  have hbrace := hc.ne (d := '{') (by decide) (by decide)
  have htrue := hc.ne (d := 't') (by decide) (by decide)
  have hfalse := hc.ne (d := 'f') (by decide) (by decide)
  rw [value.eq_def]
  dsimp only
  split <;> simp_all

/-- A real number is read from its text alone, whatever follows. -/
theorem exists_scalar_write {x : Float} :
    (∃ c cs, (realLayout.write x).toList = c :: cs ∧ StartsNumber c) ∧
      ∃ r : Option Value, ∀ rest, EndsValue rest →
        scalar ((realLayout.write x).toList ++ rest) = r.map (·, rest) := by
  by_cases hx : x.isFinite = true
  · obtain ⟨t, ht, -, htext⟩ := realLayout.exists_write rfl hx
    obtain ⟨c, cs, hchars, hc⟩ := ht.exists_chars
    refine ⟨⟨c, cs, htext.trans hchars, hc.imp_right .inl⟩, ?_⟩
    refine ⟨ofWritten? t, fun rest hrest => ?_⟩
    rw [htext, scalar_chars t ht hrest, decimal_chars t ht hrest]
  · have hname : (realLayout.write x).toList = ['n', 'a', 'n'] ∨
        (realLayout.write x).toList = ['i', 'n', 'f'] ∨
        (realLayout.write x).toList = ['-', 'i', 'n', 'f'] := by
      unfold Layout.write
      cases hbinary : Binary.ofFloat x with
      | finite negative m q => exact absurd ((isFinite_iff x).2 ⟨negative, m, q, hbinary⟩) hx
      | infinite negative => cases negative <;> simp [realLayout]
      | notANumber => simp [realLayout]
    have hscalar : ∀ {c : Char} {cs : List Char}, c.isDigit = false →
        scalar (c :: cs) = decimal (c :: cs) := by
      intro c cs hc
      have hzero : c ≠ '0' := by rintro rfl; cases hc
      rw [scalar.eq_def]
      split <;> simp_all [moment_of_not_isDigit]
    rcases hname with h | h | h
    · rw [h]
      exact ⟨⟨_, _, rfl, .inr (.inr (.inr rfl))⟩, some (.real (0.0 / 0.0)),
        fun rest _ => (hscalar (c := 'n') rfl).trans rfl⟩
    · rw [h]
      exact ⟨⟨_, _, rfl, .inr (.inr (.inl rfl))⟩, some (.real (1.0 / 0.0)),
        fun rest _ => (hscalar (c := 'i') rfl).trans rfl⟩
    · rw [h]
      exact ⟨⟨_, _, rfl, .inr (.inl rfl)⟩, some (.real (-(1.0 / 0.0))),
        fun rest _ => (hscalar (c := '-') rfl).trans rfl⟩

/-- A printed value is read back in front of the end of its line. -/
def ReadsBack (part : String) (v : Value) : Prop :=
  (∀ rest, skipBlanks (part.toList ++ rest) = part.toList ++ rest) ∧
    ∀ rest, EndsValue rest → value nestingLimit (part.toList ++ rest) = some (v, rest)

/-- A text that starts with a character that is no blank. -/
theorem skipBlanks_of_cons {part : String} {c : Char} {cs : List Char} (h : part.toList = c :: cs)
    (hc : isBlank c = false) (rest : List Char) :
    skipBlanks (part.toList ++ rest) = part.toList ++ rest := by
  rw [h, List.cons_append, skipBlanks, List.dropWhile_cons_of_neg (by simp [hc])]

theorem ReadsBack.of_scalar {part : String} {v : Value} {c : Char} {cs : List Char}
    (hpart : part.toList = c :: cs) (hc : StartsNumber c)
    (h : ∀ rest, EndsValue rest → scalar (part.toList ++ rest) = some (v, rest)) :
    ReadsBack part v := by
  have hblank : isBlank c = false := by
    simp [isBlank, hc.ne (d := ' ') (by decide) (by decide),
      hc.ne (d := '\t') (by decide) (by decide)]
  refine ⟨skipBlanks_of_cons hpart hblank, fun rest hrest => ?_⟩
  have hvalue := h rest hrest
  rw [hpart, List.cons_append] at hvalue ⊢
  exact (value_of_startsNumber 79 hc _).trans hvalue

theorem readsBack_bool (b : Bool) : ReadsBack (if b then "true" else "false") (.bool b) := by
  cases b with
  | true => exact ⟨fun rest => rfl, fun rest _ => rfl⟩
  | false => exact ⟨fun rest => rfl, fun rest _ => rfl⟩

theorem readsBack_intText {n : Int} (hlow : -Nat.pow 2 63 ≤ n) (hhigh : n < Nat.pow 2 63) :
    ReadsBack (intText n) (.int n) := by
  obtain ⟨c, cs, hchars, hc⟩ := (Written.proper_ofInt n).exists_chars
  exact .of_scalar ((intText_toList n).trans hchars) (hc.imp_right .inl) fun rest hrest =>
    scalar_intText hlow hhigh hrest

theorem readsBack_real {x : Float} (h : KeepsReal x) :
    ReadsBack (realLayout.write x) (.real x) := by
  obtain ⟨⟨c, cs, htext, hc⟩, r, hr⟩ := exists_scalar_write (x := x)
  have hvalue := hr [] (by simp [EndsValue])
  rw [List.append_nil, h] at hvalue
  obtain rfl : r = some (.real x) := by
    cases r with
    | none => cases hvalue
    | some v => simpa using hvalue.symm
  exact .of_scalar htext hc hr

theorem readsBack_quoted (s : String) : ReadsBack (quoted s) (.text s) := by
  refine ⟨fun rest => ?_, fun rest hrest => ?_⟩
  · rw [quoted_append]
    rfl
  · have htext := text_quoted s hrest
    rw [quoted_append] at htext ⊢
    rw [show nestingLimit = 79 + 1 from rfl, value, htext]
    rfl

/-- A value that stands on one line and is read back. -/
def KeepsLeaf : Value → Prop
  | .bool _ | .int _ | .text _ => True
  | .real x => KeepsReal x
  | .null | .unreadable | .date _ | .list _ | .table _ => False

/-- **A value is read back from its line.** -/
theorem readsBack_inline {v : Value} (hv : KeepsLeaf v) {part : String}
    (h : inline? v = some part) : ReadsBack part v := by
  cases v with
  | bool b =>
    obtain rfl := Option.some.inj h
    exact readsBack_bool b
  | int n =>
    rw [inline?] at h
    split_ifs at h with hn
    obtain rfl := Option.some.inj h
    exact readsBack_intText hn.1 hn.2
  | real x =>
    obtain rfl := Option.some.inj h
    exact readsBack_real hv
  | text s =>
    obtain rfl := Option.some.inj h
    exact readsBack_quoted s
  | null | unreadable | date s | list items | table entries => exact absurd hv id

end Toml

end Document

end Lathe
