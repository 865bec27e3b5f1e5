import Lathe.Proofs.Decimal.Exact
import Lathe.Proofs.Decimal.Literal
import Lathe.Proofs.Program.Reading
import Lathe.Proofs.Program.Scanning
import Mathlib

/-!
# The grammar of programs

What is read is what a grammar says of the items of a line.

* `Item.Denotes`, `Item.Offends` : the word that an item is, or the fault in it.  A word has the
  literal of a numeral, whose value is finite and in the range of its address.
* `Line.Says`, `Line.Fails` : the words of a line, or the first fault in it.
* `Line.Casts` : the codes on a line are the exact values of their words.

`Program.followsGrammar` says that lines and programs are read exactly by this grammar.
-/

namespace Lathe

/-- The first place in a list where something is wrong is the first one of all or comes after a
first one where nothing is. -/
theorem exists_first_cons_iff {β : Type} (fine : β → Prop) (wrong : ℕ → β → Prop) {b : β}
    {bs : List β} :
    (∃ before c after, b :: bs = before ++ c :: after ∧ (∀ x ∈ before, fine x) ∧
        wrong before.length c) ↔
      wrong 0 b ∨ fine b ∧ ∃ before c after, bs = before ++ c :: after ∧
        (∀ x ∈ before, fine x) ∧ wrong (before.length + 1) c := by
  constructor
  · rintro ⟨before, c, after, hsplit, hbefore, hc⟩
    cases before with
    | nil =>
      obtain ⟨rfl, rfl⟩ := List.cons.inj hsplit
      exact .inl hc
    | cons b' before =>
      obtain ⟨rfl, hbs⟩ := List.cons.inj hsplit
      obtain ⟨hb, hbefore⟩ := List.forall_mem_cons.1 hbefore
      exact .inr ⟨hb, before, c, after, hbs, hbefore, hc⟩
  · rintro (hb | ⟨hb, before, c, after, rfl, hbefore, hc⟩)
    · exact ⟨[], b, bs, rfl, by simp, hb⟩
    · exact ⟨b :: before, c, after, rfl, List.forall_mem_cons.2 ⟨hb, hbefore⟩, hc⟩

/-! ### Words -/

theorem Address.ofLetter?_eq_some_iff {c : Char} {a : Address} :
    ofLetter? c = some a ↔ c = a.letter := by
  constructor
  · intro h
    have hletter := List.find?_some h
    exact (beq_iff_eq.1 hletter).symm
  · rintro rfl
    exact ofLetter?_letter a

/-- The values of an address. -/
def Address.Admits (v : ℚ) : Address → Prop
  | .n => ∃ n : ℕ, v = n ∧ n ≤ 2 ^ 32 - 1
  | .m => ∃ n : ℕ, v = n ∧ n ≤ 65535
  | .g => 0 ≤ v ∧ v ≤ 2 ^ 32 - 1
  | _ => True

namespace Item

variable {i : Item} {w : Word Float} {fault : Fault Float}

/-- The letter of the item is an address. -/
def IsRecognized (i : Item) : Prop :=
  ∃ a : Address, i.letter = a.letter

theorem isRecognized_iff : i.IsRecognized ↔ (Address.ofLetter? i.letter).isSome = true := by
  rw [Option.isSome_iff_exists]
  exact exists_congr fun a => Address.ofLetter?_eq_some_iff.symm

instance : DecidablePred IsRecognized := fun _ => decidable_of_iff' _ isRecognized_iff

/-- The item is the word: its literal is that of a numeral, and the value of the numeral is finite
and in the range of the address. -/
structure Denotes (i : Item) (w : Word Float) : Prop where
  /-- The letter. -/
  letter : i.letter = w.address.letter
  /-- The literal. -/
  literal : ∃ n : Decimal.Numeral, n.Spells i.literal ∧ w.value = n.value
  /-- The value. -/
  admits : ∃ v, Decimal.rational? w.value = some v ∧ w.address.Admits v

/-- What is wrong with an item whose letter is an address. -/
inductive Offends : Item → Fault Float → Prop where
  /-- The literal is that of no numeral. -/
  | malformed {a : Address} {literal : List Char}
      (h : ∀ n : Decimal.Numeral, ¬n.Spells literal) :
      Offends ⟨a.letter, literal⟩ (.malformedNumber a (String.ofList literal))
  /-- The number is too large. -/
  | infinite {a : Address} {literal : List Char} {n : Decimal.Numeral} (h : n.Spells literal)
      (hn : Decimal.rational? (n.value : Float) = none) :
      Offends ⟨a.letter, literal⟩ (.malformedNumber a (String.ofList literal))
  /-- No label. -/
  | label {literal : List Char} {n : Decimal.Numeral} {v : ℚ} (h : n.Spells literal)
      (hn : Decimal.rational? (n.value : Float) = some v) (hv : ¬Address.n.Admits v) :
      Offends ⟨Address.n.letter, literal⟩ (.badLabel (String.ofList literal))
  /-- No code. -/
  | code {a : Address} {literal : List Char} {n : Decimal.Numeral} {v : ℚ} (ha : a ≠ .n)
      (h : n.Spells literal) (hn : Decimal.rational? (n.value : Float) = some v)
      (hv : ¬a.Admits v) : Offends ⟨a.letter, literal⟩ (.badCode a n.value)

end Item

namespace Word

theorem toNat?_eq_some_iff {v : Float} {n : ℕ} :
    Scalar.toNat? v = some n ↔ Decimal.rational? v = some (n : ℚ) :=
  Decimal.Binary.toNat?_eq_some_iff

theorem label?_eq_some_iff {v : Float} {n : ℕ} :
    label? v = some n ↔ Decimal.rational? v = some (n : ℚ) ∧ n ≤ codeLimit := by
  rw [label?, Option.filter_eq_some_iff, toNat?_eq_some_iff, decide_eq_true_eq]

theorem aux?_eq_some_iff {v : Float} {code : AuxCode} :
    aux? v = some code ↔
      Decimal.rational? v = some (code.number : ℚ) ∧ code.number ≤ AuxCode.limit := by
  rw [aux?, Option.map_eq_some_iff]
  constructor
  · rintro ⟨n, hn, rfl⟩
    rwa [Option.filter_eq_some_iff, toNat?_eq_some_iff, decide_eq_true_eq] at hn
  · intro h
    refine ⟨code.number, ?_, rfl⟩
    rwa [Option.filter_eq_some_iff, toNat?_eq_some_iff, decide_eq_true_eq]

theorem rational?_zero : Decimal.rational? 0.0 = some 0 := by
  have h : Scalar.toNat? (0.0 : Float) = some 0 := by decide +kernel
  exact_mod_cast toNat?_eq_some_iff.1 h

theorem rational?_codeLimit : Decimal.rational? (Scalar.ofNat codeLimit) = some (2 ^ 32 - 1) := by
  have h : Scalar.toNat? (Scalar.ofNat codeLimit : Float) = some 4294967295 := by decide +kernel
  rw [toNat?_eq_some_iff.1 h]
  norm_num

theorem isPreparatory_iff {x : Float} {v : ℚ} (h : Decimal.rational? x = some v) :
    isPreparatory x = true ↔ 0 ≤ v ∧ v ≤ 2 ^ 32 - 1 := by
  rw [isPreparatory, Bool.and_eq_true, decide_eq_true_eq, decide_eq_true_eq]
  exact and_congr (Decimal.le_iff_rational rational?_zero h)
    (Decimal.le_iff_rational h rational?_codeLimit)

/-- A finite value is in the range of an address if the address admits it. -/
theorem inRange_iff_admits {a : Address} {x : Float} {v : ℚ} (h : Decimal.rational? x = some v) :
    inRange a x = true ↔ a.Admits v := by
  cases a with
  | n =>
    rw [inRange, Option.isSome_iff_exists]
    simp only [label?_eq_some_iff, h, Option.some_inj]
    exact Iff.rfl
  | m =>
    rw [inRange, Option.isSome_iff_exists]
    simp only [aux?_eq_some_iff, h, Option.some_inj]
    exact ⟨fun ⟨code, hcode⟩ => ⟨code.number, hcode⟩, fun ⟨n, hn⟩ => ⟨⟨n⟩, hn⟩⟩
  | g => exact isPreparatory_iff h
  | _ => exact iff_of_true rfl trivial

variable {a : Address} {literal : List Char} {n : Decimal.Numeral} {i : Item} {w : Word Float}
  {fault : Fault Float}

theorem read_of_spells (h : n.Spells literal) {v : ℚ}
    (hv : Decimal.rational? (n.value : Float) = some v) :
    read (α := Float) a literal =
      if inRange a (n.value : Float) then .ok ⟨a, n.value⟩
      else .error (rangeFault a literal n.value) := by
  have hfinite : Scalar.isFinite (n.value : Float) = true :=
    Decimal.isFinite_iff_rational?.2 ⟨v, hv⟩
  rw [read, Decimal.Numeral.ofChars?_eq_some_iff.2 h]
  simp only [hfinite, Bool.not_true]
  exact if_neg nofun

/-- An item with the letter of an address is read as a word. -/
theorem ofItem_letter : ofItem (α := Float) ⟨a.letter, literal⟩ = (read a literal).map some := by
  rw [ofItem, Address.ofLetter?_letter]

theorem ofItem_of_denotes (h : i.Denotes w) : ofItem i = .ok (some w) := by
  obtain ⟨letter, literal⟩ := i
  obtain ⟨a, x⟩ := w
  obtain ⟨rfl, ⟨n, hn, rfl⟩, v, hv, hadmits⟩ := h
  rw [ofItem_letter, read_of_spells hn hv, if_pos ((inRange_iff_admits hv).2 hadmits)]
  rfl

theorem rangeFault_of_ne (ha : a ≠ .n) {x : Float} : rangeFault a literal x = .badCode a x := by
  cases a with
  | n => exact absurd rfl ha
  | _ => rfl

theorem ofItem_of_offends (h : i.Offends fault) : ofItem i = .error fault := by
  cases h with
  | malformed h =>
    rw [ofItem_letter, read, Decimal.Numeral.ofChars?_eq_none_iff.2 h]
    rfl
  | @infinite a literal n h hn =>
    have hfinite : ¬Scalar.isFinite (n.value : Float) = true := by
      intro hfinite
      obtain ⟨v, hv⟩ := Decimal.isFinite_iff_rational?.1 hfinite
      rw [hn] at hv
      cases hv
    rw [ofItem_letter, read, Decimal.Numeral.ofChars?_eq_some_iff.2 h]
    simp only [Bool.eq_false_iff.2 hfinite, Bool.not_false, if_true]
    rfl
  | label h hn hv =>
    rw [ofItem_letter, read_of_spells h hn, if_neg (mt (inRange_iff_admits hn).1 hv)]
    rfl
  | code ha h hn hv =>
    rw [ofItem_letter, read_of_spells h hn, if_neg (mt (inRange_iff_admits hn).1 hv),
      rangeFault_of_ne ha]
    rfl

/-- An item whose letter is an address is a word or has a fault in it. -/
theorem denotes_or_offends (h : i.IsRecognized) :
    (∃ w, i.Denotes w) ∨ ∃ fault, i.Offends fault := by
  obtain ⟨letter, literal⟩ := i
  obtain ⟨a, rfl⟩ := h
  by_cases hspells : ∃ n : Decimal.Numeral, n.Spells literal
  · obtain ⟨n, hn⟩ := hspells
    cases hv : Decimal.rational? (n.value : Float) with
    | none => exact .inr ⟨_, .infinite hn hv⟩
    | some v =>
      by_cases hadmits : a.Admits v
      · exact .inl ⟨⟨a, n.value⟩, rfl, ⟨n, hn, rfl⟩, v, hv, hadmits⟩
      · by_cases ha : a = .n
        · subst ha
          exact .inr ⟨_, .label hn hv hadmits⟩
        · exact .inr ⟨_, .code ha hn hv hadmits⟩
  · exact .inr ⟨_, .malformed (not_exists.1 hspells)⟩

theorem ofItem_eq_ok_none_iff : ofItem (α := Float) i = .ok none ↔ ¬i.IsRecognized := by
  rw [Item.isRecognized_iff, Bool.not_eq_true, Option.isSome_eq_false_iff,
    Option.isNone_iff_eq_none]
  exact ⟨ofLetter?_eq_none_of_ofItem, ofItem_of_ofLetter?_eq_none⟩

/-- What is not left out is a word or has a fault in it. -/
theorem denotes_or_offends_of_ne (h : ofItem (α := Float) i ≠ .ok none) :
    (∃ w, i.Denotes w) ∨ ∃ fault, i.Offends fault :=
  denotes_or_offends (not_not.1 (mt ofItem_eq_ok_none_iff.2 h))

theorem ofItem_eq_ok_some_iff : ofItem i = .ok (some w) ↔ i.Denotes w := by
  refine ⟨fun h => ?_, ofItem_of_denotes⟩
  obtain ⟨w', hw⟩ | ⟨fault, hfault⟩ := denotes_or_offends_of_ne (by rw [h]; nofun)
  · cases h.symm.trans (ofItem_of_denotes hw)
    exact hw
  · cases h.symm.trans (ofItem_of_offends hfault)

theorem ofItem_eq_error_iff : ofItem i = .error fault ↔ i.Offends fault := by
  refine ⟨fun h => ?_, ofItem_of_offends⟩
  obtain ⟨w, hw⟩ | ⟨fault', hfault⟩ := denotes_or_offends_of_ne (by rw [h]; nofun)
  · cases h.symm.trans (ofItem_of_denotes hw)
  · cases h.symm.trans (ofItem_of_offends hfault)
    exact hfault

end Word

/-! ### Lines -/

namespace Line

variable {text : String} {is : List Item} {l : Line Float} {ws : List (Word Float)}
  {fault : Fault Float}

/-- The items of a line of text. -/
def HasItems (text : String) (is : List Item) : Prop :=
  ∃ cs, Uncommented text.toList cs ∧ Item.Scanned (Text.capitals cs) is

/-- What a line of text says: each of its items with an address is a word, in order. -/
def Says (text : String) (l : Line Float) : Prop :=
  ∃ is, HasItems text is ∧ List.Forall₂ Item.Denotes (is.filter fun i => i.IsRecognized) l.words

/-- The first fault in a line of text. -/
def Fails (text : String) (fault : Fault Float) : Prop :=
  ∃ before i after, HasItems text (before ++ i :: after) ∧
    (∀ j ∈ before, j.IsRecognized → ∃ w, j.Denotes w) ∧ i.Offends fault

theorem hasItems_iff : HasItems text is ↔ itemsOf text = is := by
  simp only [HasItems, uncommented_iff, Item.scanned_iff, exists_eq_left']
  exact Iff.rfl

theorem ofItems_eq_ok_iff :
    ofItems is = .ok ws ↔ List.Forall₂ Item.Denotes (is.filter fun i => i.IsRecognized) ws := by
  induction is generalizing ws with
  | nil => simp [ofItems, eq_comm]
  | cons i is ih =>
    rw [ofItems_cons_eq_ok_iff]
    by_cases hi : i.IsRecognized
    · rw [List.filter_cons_of_pos (by simpa using hi), List.forall₂_cons_left_iff]
      constructor
      · rintro ⟨word, words, hword, hwords, rfl⟩
        cases word with
        | none => exact absurd hi (Word.ofItem_eq_ok_none_iff.1 hword)
        | some w => exact ⟨w, words, Word.ofItem_eq_ok_some_iff.1 hword, ih.1 hwords, rfl⟩
      · rintro ⟨w, words, hw, hwords, rfl⟩
        exact ⟨some w, words, Word.ofItem_of_denotes hw, ih.2 hwords, rfl⟩
    · rw [List.filter_cons_of_neg (by simpa using hi), ← ih]
      constructor
      · rintro ⟨word, words, hword, hwords, rfl⟩
        rw [Word.ofItem_eq_ok_none_iff.2 hi] at hword
        cases hword
        exact hwords
      · intro hwords
        exact ⟨none, ws, Word.ofItem_eq_ok_none_iff.2 hi, hwords, rfl⟩

theorem ofItems_cons_eq_error_iff {i : Item} :
    ofItems (i :: is) = .error fault ↔
      Word.ofItem i = .error fault ∨
        (∃ word, Word.ofItem (α := Float) i = .ok word) ∧ ofItems is = .error fault := by
  rw [ofItems]
  cases (Word.ofItem i : Except (Fault Float) (Option (Word Float))) with
  | error e => simp [bind, Except.bind]
  | ok word =>
    cases (ofItems is : Except (Fault Float) (List (Word Float))) with
    | error e => simp [bind, Except.bind]
    | ok words => simp [bind, Except.bind, pure, Except.pure]

/-- An item that is read is a word if its letter is an address. -/
theorem exists_ofItem_eq_ok_iff {i : Item} :
    (∃ word, Word.ofItem (α := Float) i = .ok word) ↔ (i.IsRecognized → ∃ w, i.Denotes w) := by
  constructor
  · rintro ⟨word, hword⟩ hi
    cases word with
    | none => exact absurd hi (Word.ofItem_eq_ok_none_iff.1 hword)
    | some w => exact ⟨w, Word.ofItem_eq_ok_some_iff.1 hword⟩
  · intro h
    by_cases hi : i.IsRecognized
    · obtain ⟨w, hw⟩ := h hi
      exact ⟨some w, Word.ofItem_of_denotes hw⟩
    · exact ⟨none, Word.ofItem_eq_ok_none_iff.2 hi⟩

theorem ofItems_eq_error_iff :
    ofItems is = .error fault ↔ ∃ before i after, is = before ++ i :: after ∧
      (∀ j ∈ before, j.IsRecognized → ∃ w, j.Denotes w) ∧ i.Offends fault := by
  induction is with
  | nil => exact iff_of_false nofun fun ⟨before, i, after, h, _⟩ => by simp at h
  | cons i is ih =>
    rw [ofItems_cons_eq_error_iff, Word.ofItem_eq_error_iff, exists_ofItem_eq_ok_iff, ih]
    exact (exists_first_cons_iff (fun j : Item => j.IsRecognized → ∃ w, j.Denotes w)
      fun _ j => j.Offends fault).symm

/-- **A line reads as what it says.** -/
theorem read_iff_grammar : read text = .ok l ↔ Says text l := by
  rw [read_eq_ok_iff, ofItems_eq_ok_iff]
  simp only [Says, hasItems_iff, exists_eq_left']

/-- **The first fault in a line is reported.** -/
theorem read_error_iff_grammar : read text = .error fault ↔ Fails text fault := by
  have hread : read text = .error fault ↔ ofItems (itemsOf text) = .error fault := by
    rw [read]
    cases (ofItems (itemsOf text) : Except (Fault Float) (List (Word Float))) <;> simp [Except.map]
  simp only [hread, ofItems_eq_error_iff, Fails, hasItems_iff]

theorem exists_ofItems_eq_ok_iff :
    (∃ ws, ofItems (α := Float) is = .ok ws) ↔ ∀ i ∈ is, i.IsRecognized → ∃ w, i.Denotes w := by
  induction is with
  | nil => exact iff_of_true ⟨[], rfl⟩ (by simp)
  | cons i is ih =>
    rw [List.forall_mem_cons, ← exists_ofItem_eq_ok_iff, ← ih]
    constructor
    · rintro ⟨ws, hws⟩
      obtain ⟨word, words, hword, hwords, -⟩ := ofItems_cons_eq_ok_iff.1 hws
      exact ⟨⟨word, hword⟩, words, hwords⟩
    · rintro ⟨⟨word, hword⟩, words, hwords⟩
      exact ⟨_, ofItems_cons_eq_ok_iff.2 ⟨word, words, hword, hwords, rfl⟩⟩

/-- **A line is read if each of its items with an address is a word.** -/
theorem exists_read_eq_ok_iff :
    (∃ l : Line Float, read text = .ok l) ↔
      ∀ i ∈ itemsOf text, i.IsRecognized → ∃ w, i.Denotes w := by
  rw [← exists_ofItems_eq_ok_iff]
  exact ⟨fun ⟨l, hl⟩ => ⟨l.words, read_eq_ok_iff.1 hl⟩, fun ⟨ws, hws⟩ =>
    ⟨⟨ws⟩, read_eq_ok_iff.2 hws⟩⟩

/-! ### Codes -/

/-- The codes on a line are the exact values of their words: nothing is lost when the label, the M
code and the motion are cut to whole numbers. -/
structure Casts (l : Line Float) : Prop where
  /-- The label. -/
  label : ∀ v, l.value? .n = some v →
    Decimal.rational? v = some (v.toUInt32.toNat : ℚ) ∧ l.label? = some v.toUInt32.toNat
  /-- The M code. -/
  aux : ∀ v, l.value? .m = some v →
    Decimal.rational? v = some (v.toUInt16.toNat : ℚ) ∧ l.aux? = some ⟨v.toUInt16.toNat⟩
  /-- The motion: the first of the G codes that is a whole number up to three. -/
  motion : ∀ m, l.motion? = some m ↔ ∃ before v after, l.codes = before ++ v :: after ∧
    (∀ u ∈ before, ∀ n : ℕ, Decimal.rational? u = some (n : ℚ) → 3 < n) ∧
    Decimal.rational? v = some (v.toUInt32.toNat : ℚ) ∧ v.toUInt32.toNat = m.code

theorem exists_mem_of_value? {a : Address} {v : Float} (h : l.value? a = some v) :
    (⟨a, v⟩ : Word Float) ∈ l.words := by
  obtain ⟨w, hw, rfl⟩ := Option.map_eq_some_iff.1 h
  have ha := List.find?_some hw
  obtain rfl : w.address = a := of_decide_eq_true ha
  exact List.mem_of_find?_eq_some hw

theorem ofCode?_eq_none_iff {n : ℕ} : Motion.ofCode? n = none ↔ 3 < n := by
  match n with
  | 0 | 1 | 2 | 3 => exact iff_of_false nofun (by decide)
  | n + 4 => exact iff_of_true rfl (by omega)

/-- A G code selects no motion unless it is a whole number up to three. -/
theorem bind_ofCode?_eq_none_iff {v : Float} :
    (Scalar.toNat? v).bind Motion.ofCode? = none ↔
      ∀ n : ℕ, Decimal.rational? v = some (n : ℚ) → 3 < n := by
  rw [Option.bind_eq_none_iff]
  exact forall_congr' fun n => imp_congr Word.toNat?_eq_some_iff ofCode?_eq_none_iff

theorem bind_ofCode?_eq_some_iff {v : Float} {m : Motion} :
    (Scalar.toNat? v).bind Motion.ofCode? = some m ↔
      Decimal.rational? v = some (v.toUInt32.toNat : ℚ) ∧ v.toUInt32.toNat = m.code := by
  rw [Option.bind_eq_some_iff]
  constructor
  · rintro ⟨n, hn, hm⟩
    have hn := Word.toNat?_eq_some_iff.1 hn
    obtain rfl := Motion.ofCode?_eq_some_iff.1 hm
    have hlt : m.code < 2 ^ 32 := by
      rcases m with _ | _ | r
      · decide
      · decide
      · cases r <;> decide
    rw [Decimal.toUInt32_of_rational? hn hlt]
    exact ⟨hn, rfl⟩
  · rintro ⟨hv, hm⟩
    exact ⟨_, Word.toNat?_eq_some_iff.2 hv, Motion.ofCode?_eq_some_iff.2 hm⟩

/-- **No code of a line that is read is cut short.** -/
theorem casts_of_read (h : read text = .ok l) : Casts l where
  label v hv := by
    have hrange : (Word.label? v).isSome = true := inRange_of_read h _ (exists_mem_of_value? hv)
    obtain ⟨n, hn⟩ := Option.isSome_iff_exists.1 hrange
    obtain ⟨hexact, hle⟩ := Word.label?_eq_some_iff.1 hn
    rw [label?, hv, Decimal.toUInt32_of_rational? hexact (Nat.lt_succ_of_le hle)]
    exact ⟨hexact, hn⟩
  aux v hv := by
    have hrange : (Word.aux? v).isSome = true := inRange_of_read h _ (exists_mem_of_value? hv)
    obtain ⟨code, hcode⟩ := Option.isSome_iff_exists.1 hrange
    obtain ⟨hexact, hle⟩ := Word.aux?_eq_some_iff.1 hcode
    rw [aux?, hv, Decimal.toUInt16_of_rational? hexact (Nat.lt_succ_of_le hle)]
    exact ⟨hexact, hcode⟩
  motion m := by
    rw [motion?, List.findSome?_eq_some_iff]
    simp only [bind_ofCode?_eq_none_iff, bind_ofCode?_eq_some_iff]
    constructor
    · rintro ⟨before, v, after, hcodes, ⟨hv, hm⟩, hbefore⟩
      exact ⟨before, v, after, hcodes, hbefore, hv, hm⟩
    · rintro ⟨before, v, after, hcodes, hbefore, hv, hm⟩
      exact ⟨before, v, after, hcodes, ⟨hv, hm⟩, hbefore⟩

/-- A line of text is read by the grammar. -/
structure FollowsGrammar (text : String) : Prop where
  /-- It has items, in one way. -/
  items : ∃! is, HasItems text is
  /-- It is read if each of its items with an address is a word. -/
  succeeds : (∃ l : Line Float, read text = .ok l) ↔
    ∀ is, HasItems text is → ∀ i ∈ is, i.IsRecognized → ∃ w, i.Denotes w
  /-- The words are those items, in order. -/
  ok : ∀ l, read text = .ok l ↔ Says text l
  /-- The error is that of the first item with a fault. -/
  error : ∀ fault, read text = .error fault ↔ Fails text fault
  /-- No code is cut short. -/
  casts : ∀ l, read text = .ok l → Casts l

/-- **Every line of text is read by the grammar.** -/
theorem followsGrammar_read (text : String) : FollowsGrammar text where
  items := ⟨itemsOf text, hasItems_iff.2 rfl, fun _ h => (hasItems_iff.1 h).symm⟩
  succeeds := by
    simp only [exists_read_eq_ok_iff, hasItems_iff]
    exact ⟨fun h is his => his ▸ h, fun h => h _ rfl⟩
  ok _ := read_iff_grammar
  error _ := read_error_iff_grammar
  casts _ := casts_of_read

end Line

/-! ### Programs -/

namespace Program

variable {index : ℕ} {texts : List String} {lines : List (Line Float)} {e : ReadError Float}

/-- What the lines of a source say. -/
def Says (s : Source) (p : Program Float) : Prop :=
  List.Forall₂ Line.Says s.lines.toList p.lines.toList

/-- The first line that fails, with its number, counted from one, and the first fault in it. -/
def Fails (s : Source) (e : ReadError Float) : Prop :=
  ∃ before text after, s.lines.toList = before ++ text :: after ∧
    (∀ t ∈ before, ∃ l, Line.Says t l) ∧ Line.Fails text e.fault ∧ e.lineNumber = before.length + 1

theorem readFrom_eq_ok_iff :
    readFrom index texts = .ok lines ↔ List.Forall₂ Line.Says texts lines := by
  induction texts generalizing index lines with
  | nil => simp [readFrom, eq_comm]
  | cons text texts ih =>
    rw [List.forall₂_cons_left_iff]
    constructor
    · intro h
      cases hl : (Line.read text : Except (Fault Float) (Line Float)) with
      | error fault => rw [readFrom_cons_of_error hl] at h; cases h
      | ok l =>
        rw [readFrom_cons_of_ok hl] at h
        obtain ⟨rest, hrest, rfl⟩ := exists_of_map_eq_ok h
        exact ⟨l, rest, Line.read_iff_grammar.1 hl, ih.1 hrest, rfl⟩
    · rintro ⟨l, rest, hl, hrest, rfl⟩
      rw [readFrom_cons_of_ok (Line.read_iff_grammar.2 hl), ih.2 hrest]
      rfl

theorem readFrom_cons_eq_error_iff {text : String} :
    readFrom index (text :: texts) = .error e ↔
      (Line.Fails text e.fault ∧ e.index = index) ∨
        (∃ l, Line.Says text l) ∧ readFrom (index + 1) texts = .error e := by
  cases hl : (Line.read text : Except (Fault Float) (Line Float)) with
  | error fault =>
    have hsaid : ¬∃ l, Line.Says text l := by
      rintro ⟨l, hsaid⟩
      cases hl.symm.trans (Line.read_iff_grammar.2 hsaid)
    rw [readFrom_cons_of_error hl, ← Line.read_error_iff_grammar, hl]
    simp only [hsaid, false_and, or_false]
    constructor
    · rintro ⟨⟩
      exact ⟨rfl, rfl⟩
    · rintro ⟨hfault, rfl⟩
      cases hfault
      rfl
  | ok l =>
    rw [readFrom_cons_of_ok hl, ← Line.read_error_iff_grammar, hl]
    have hsaid : ∃ l, Line.Says text l := ⟨l, Line.read_iff_grammar.1 hl⟩
    simp only [hsaid, true_and, reduceCtorEq, false_and, false_or]
    cases (readFrom (index + 1) texts : Except (ReadError Float) (List (Line Float))) <;>
      simp [Except.map]

theorem readFrom_eq_error_iff :
    readFrom index texts = .error e ↔ ∃ before text after, texts = before ++ text :: after ∧
      (∀ t ∈ before, ∃ l, Line.Says t l) ∧ Line.Fails text e.fault ∧
      e.index = index + before.length := by
  induction texts generalizing index with
  | nil => exact iff_of_false nofun fun ⟨before, text, after, h, _⟩ => by simp at h
  | cons text texts ih =>
    rw [readFrom_cons_eq_error_iff, ih]
    simp only [Nat.add_assoc, Nat.add_comm 1]
    exact (exists_first_cons_iff (fun t => ∃ l, Line.Says t l)
      fun n t => Line.Fails t e.fault ∧ e.index = index + n).symm

/-- **A program reads as what its lines say.** -/
theorem read_iff_grammar {s : Source} {p : Program Float} : read s = .ok p ↔ Says s p := by
  rw [Says, read]
  constructor
  · intro h
    obtain ⟨lines, hlines, rfl⟩ := exists_of_map_eq_ok h
    exact readFrom_eq_ok_iff.1 hlines
  · intro h
    rw [readFrom_eq_ok_iff.2 h]
    rfl

/-- **The first line that fails is reported.** -/
theorem read_error_iff_grammar {s : Source} : read s = .error e ↔ Fails s e := by
  have hread : read s = .error e ↔ readFrom 0 s.lines.toList = .error e := by
    rw [read]
    cases (readFrom 0 s.lines.toList : Except (ReadError Float) (List (Line Float))) <;>
      simp [Except.map]
  rw [hread, readFrom_eq_error_iff]
  simp only [Nat.zero_add, Fails, ReadError.lineNumber, Nat.add_right_cancel_iff]

/-- A source is read by the grammar. -/
structure FollowsGrammar (s : Source) : Prop where
  /-- It is read if each of its lines is. -/
  succeeds : (∃ p : Program Float, read s = .ok p) ↔
    ∀ text ∈ s.lines, ∃ l : Line Float, Line.read text = .ok l
  /-- The lines of the program are what the lines of the source say, in order. -/
  ok : ∀ p, read s = .ok p ↔ Says s p
  /-- The error is that of the first line that fails, with its number. -/
  error : ∀ e, read s = .error e ↔ Fails s e

theorem exists_forall₂_lines :
    (∃ lines, List.Forall₂ Line.Says texts lines) ↔ ∀ text ∈ texts, ∃ l, Line.Says text l := by
  induction texts with
  | nil => exact iff_of_true ⟨[], .nil⟩ (by simp)
  | cons text texts ih =>
    rw [List.forall_mem_cons, ← ih]
    constructor
    · rintro ⟨lines, hlines⟩
      obtain ⟨l, rest, hl, hrest, rfl⟩ := List.forall₂_cons_left_iff.1 hlines
      exact ⟨⟨l, hl⟩, rest, hrest⟩
    · rintro ⟨⟨l, hl⟩, rest, hrest⟩
      exact ⟨l :: rest, .cons hl hrest⟩

/-- **Reading accepts exactly the grammar**, line by line and for whole programs. -/
theorem followsGrammar :
    (∀ text, Line.FollowsGrammar text) ∧ ∀ s : Source, FollowsGrammar s := by
  refine ⟨Line.followsGrammar_read, fun s => ⟨?_, fun _ => read_iff_grammar, fun _ =>
    read_error_iff_grammar⟩⟩
  simp only [read_iff_grammar, Line.read_iff_grammar]
  have hlines : (∃ lines, List.Forall₂ Line.Says s.lines.toList lines) ↔
      ∀ text ∈ s.lines, ∃ l, Line.Says text l := by
    simp only [exists_forall₂_lines, Array.mem_toList_iff]
  rw [← hlines]
  exact ⟨fun ⟨p, hp⟩ => ⟨p.lines.toList, hp⟩, fun ⟨lines, h⟩ => ⟨⟨lines.toArray⟩, h⟩⟩

end Program

end Lathe
