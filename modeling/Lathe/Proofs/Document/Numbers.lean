import Lathe.Document.Json.Printer
import Lathe.Document.Json.Reader
import Lathe.Document.Toml.Printer
import Lathe.Document.Toml.Reader
import Lathe.Proofs.Decimal.Written

/-!
# Numbers of documents

Both document formats read a written number back piece by piece, whatever follows on the next line
or after a comma.  What the pieces stand for is another matter: a real number is computed from them
with rounding.  `Json.number_chars` and `Toml.scalar_chars` say which pieces these are.
-/

namespace Lathe

namespace Decimal

/-! ### Reading digits -/

/-- The characters do not go on with digits. -/
def NoDigit (cs : List Char) : Prop := ∀ c ∈ cs.head?, c.isDigit = false

end Decimal

namespace Document

open Decimal

/-- What may follow a value: nothing, a comma or the end of the line. -/
def EndsValue (cs : List Char) : Prop := ∀ c ∈ cs.head?, c = ',' ∨ c = '\n'

theorem EndsValue.noDigit {cs : List Char} (h : EndsValue cs) : NoDigit cs := by
  intro c hc
  rcases h c hc with rfl | rfl <;> rfl

/-- What may follow the digits after the point. -/
theorem head?_exponentChars (t : Written) {rest : List Char} (hrest : EndsValue rest) :
    ∀ c ∈ (t.exponentChars ++ rest).head?, c = 'e' ∨ c = ',' ∨ c = '\n' := by
  unfold Written.exponentChars
  cases t.exponent with
  | some e => simp
  | none =>
    intro c hc
    exact .inr (hrest c (by simpa using hc))

/-- What may follow the digits before the point. -/
theorem head?_tailChars (t : Written) {rest : List Char} (hrest : EndsValue rest) :
    ∀ c ∈ (t.tailChars ++ rest).head?, c = '.' ∨ c = 'e' ∨ c = ',' ∨ c = '\n' := by
  unfold Written.tailChars
  cases t.fraction with
  | some ds => simp
  | none =>
    intro c hc
    exact .inr (head?_exponentChars t hrest c (by simpa using hc))

theorem noDigit_tailChars (t : Written) {rest : List Char} (hrest : EndsValue rest) :
    NoDigit (t.tailChars ++ rest) := by
  intro c hc
  rcases head?_tailChars t hrest c hc with rfl | rfl | rfl | rfl <;> rfl

theorem noDigit_exponentChars (t : Written) {rest : List Char} (hrest : EndsValue rest) :
    NoDigit (t.exponentChars ++ rest) := by
  intro c hc
  rcases head?_exponentChars t hrest c hc with rfl | rfl | rfl <;> rfl

/-! ### Numbers in JSON -/

namespace Json

theorem digits_append {ds rest : List Char} (hds : IsDigits ds) (hrest : NoDigit rest) :
    digits (ds ++ rest) = some (ds, rest) := by
  obtain ⟨htake, hdrop⟩ := span_append hds.2 hrest
  unfold digits
  rw [htake, hdrop]
  obtain ⟨d, more, rfl⟩ := List.exists_cons_of_ne_nil hds.1
  rfl

theorem fraction_of_ne {c : Char} {cs : List Char} (h : c ≠ '.') :
    fraction (c :: cs) = some (none, c :: cs) := by
  unfold fraction
  split
  · simp_all
  · rfl

theorem exponent_of_isDigit {d : Char} {cs ds rest : List Char} (hd : d.isDigit = true)
    (h : digits (d :: cs) = some (ds, rest)) :
    exponent ('e' :: d :: cs) = some (some (false, ds), rest) := by
  have hplus : d ≠ '+' := by rintro rfl; cases hd
  have hminus : d ≠ '-' := by rintro rfl; cases hd
  unfold exponent
  dsimp only
  rw [if_pos (.inl rfl)]
  split
  · simp_all
  · simp_all
  · simp [h]

/-- A number taken apart in the way it is written. -/
def Number.ofWritten (t : Written) : Number :=
  ⟨t.negative, t.whole, t.fraction, t.exponent.map fun e => (e.1 = some true, e.2)⟩

theorem exponent_append (t : Written) (ht : t.Proper) {rest : List Char} (hrest : EndsValue rest) :
    exponent (t.exponentChars ++ rest) = some ((Number.ofWritten t).exponent, rest) := by
  unfold Written.exponentChars
  cases hexp : t.exponent with
  | none =>
    simp only [Option.map_none, Option.getD_none, List.nil_append, Number.ofWritten, hexp]
    cases rest with
    | nil => rfl
    | cons c cs => rcases hrest c rfl with rfl | rfl <;> rfl
  | some e =>
    obtain ⟨sign, ds⟩ := e
    have hds : IsDigits ds := ht.exponent _ hexp
    have hdigits := digits_append hds hrest.noDigit
    simp only [Option.map_some, Option.getD_some, Number.ofWritten, hexp]
    match sign with
    | some true => simp [exponent, Written.signChars, hdigits]
    | some false => simp [exponent, Written.signChars, hdigits]
    | none =>
      obtain ⟨d, more, rfl⟩ := List.exists_cons_of_ne_nil hds.1
      have hd : d.isDigit = true := hds.2 d List.mem_cons_self
      rw [List.cons_append] at hdigits
      have hexponent := exponent_of_isDigit hd hdigits
      simpa [Written.signChars] using hexponent

theorem fraction_append (t : Written) (ht : t.Proper) {rest : List Char} (hrest : EndsValue rest) :
    fraction (t.tailChars ++ rest) = some (t.fraction, t.exponentChars ++ rest) := by
  unfold Written.tailChars
  cases hfrac : t.fraction with
  | some ds =>
    have hdigits := digits_append (ht.fraction ds hfrac) (noDigit_exponentChars t hrest)
    simp [fraction, hdigits]
  | none =>
    simp only [Option.map_none, Option.getD_none, List.nil_append]
    cases hnext : t.exponentChars ++ rest with
    | nil => rfl
    | cons c cs =>
      refine fraction_of_ne ?_
      rcases head?_exponentChars t hrest c (by simp [hnext]) with rfl | rfl | rfl <;> decide

theorem number_of_isDigit {d : Char} {cs : List Char} (hd : d.isDigit = true) :
    number (d :: cs) = unsigned false (d :: cs) := by
  unfold number
  split
  · rename_i heq
    cases heq
    cases hd
  · rfl

/-- **A written number is read back as it was taken apart.** -/
theorem number_chars (t : Written) (ht : t.Proper) {rest : List Char} (hrest : EndsValue rest) :
    number (t.chars ++ rest) = some (.ofWritten t, rest) := by
  have hleading : ¬ (t.whole.head? = some '0' ∧ t.whole.length ≠ 1) :=
    fun h => h.2 (ht.leading h.1)
  have hwhole := digits_append ht.whole (noDigit_tailChars t hrest)
  have hunsigned : unsigned t.negative (t.whole ++ (t.tailChars ++ rest)) =
      some (.ofWritten t, rest) := by
    unfold unsigned whole
    rw [hwhole]
    simp [hleading, fraction_append t ht hrest, exponent_append t ht hrest, Number.ofWritten]
  cases hneg : t.negative with
  | true =>
    rw [← hunsigned, hneg]
    simp [Written.chars, hneg, number]
  | false =>
    obtain ⟨d, more, hd⟩ := List.exists_cons_of_ne_nil ht.whole.1
    have hdigit : d.isDigit = true := ht.whole.2 d (by simp [hd])
    have hchars : t.chars ++ rest = d :: (more ++ (t.tailChars ++ rest)) := by
      simp [Written.chars, hneg, hd]
    rw [← hunsigned, hneg, hchars, hd, List.cons_append, number_of_isDigit hdigit]

/-- Digits are taken up as long as the number that they give fits. -/
theorem fill_of_lt {ds : List Char} {n : Nat} (h : Nat.ofDigitChars 10 ds n < Nat.pow 2 64) :
    Number.fill n ds = (Nat.ofDigitChars 10 ds n, []) := by
  induction ds generalizing n with
  | nil => rfl
  | cons c cs ih =>
    have hle : ∀ (cs : List Char) (n : Nat), n ≤ Nat.ofDigitChars 10 cs n := by
      intro cs
      induction cs with
      | nil => exact fun n => Nat.le_refl n
      | cons c cs ih => exact fun n => Nat.le_trans (by omega) (ih (10 * n + (c.toNat - '0'.toNat)))
    have hmore := hle cs (10 * n + (c.toNat - '0'.toNat))
    rw [Number.fill, if_pos (Nat.lt_of_le_of_lt hmore h)]
    exact ih h

/-- A whole number that fits 64 bits reads back. -/
theorem value_ofInt {n : Int} (hlow : -Nat.pow 2 63 ≤ n) (hhigh : n < Nat.pow 2 64) :
    (Number.ofWritten (.ofInt n)).value = .int n := by
  have hdigits : Nat.ofDigitChars 10 (Nat.toDigits 10 n.natAbs) 0 = n.natAbs :=
    Nat.ofDigitChars_ten_toDigits
  have h63 : Nat.pow 2 63 = 9223372036854775808 := rfl
  have h64 : Nat.pow 2 64 = 18446744073709551616 := rfl
  have hfill : Number.fill 0 (Nat.toDigits 10 n.natAbs) = _ :=
    fill_of_lt (by rw [hdigits]; omega)
  rw [hdigits] at hfill
  unfold Number.value
  simp only [Number.ofWritten, Written.ofInt, hfill, Option.map_none]
  by_cases hneg : n < 0
  · simp only [hneg, decide_true, if_true]
    rw [if_pos (by omega)]
    congr 1
    omega
  · simp only [hneg, decide_false]
    simp
    omega

end Json

/-! ### Numbers in TOML -/

namespace Toml

theorem moreDigits_of_isDigit {d : Char} {done cs : List Char} (hd : d.isDigit = true) :
    moreDigits Char.isDigit done (d :: cs) = moreDigits Char.isDigit (d :: done) cs := by
  have hbar : d ≠ '_' := by rintro rfl; cases hd
  rw [moreDigits.eq_def]
  split <;> simp_all

theorem moreDigits_append {ds rest done : List Char} (hds : ∀ c ∈ ds, c.isDigit = true)
    (hrest : NoDigit rest) (hbar : ∀ c ∈ rest.head?, c ≠ '_') :
    moreDigits Char.isDigit done (ds ++ rest) = some (ds.reverse ++ done, rest) := by
  induction ds generalizing done with
  | nil =>
    cases rest with
    | nil => rfl
    | cons c cs =>
      have hc := hrest c rfl
      have hbar := hbar c rfl
      rw [List.nil_append, moreDigits.eq_def]
      split <;> simp_all
  | cons d ds ih =>
    obtain ⟨hd, hds⟩ := List.forall_mem_cons.1 hds
    rw [List.cons_append, moreDigits_of_isDigit hd, ih hds]
    simp

theorem digits_append {ds rest : List Char} (hds : IsDigits ds) (hrest : NoDigit rest)
    (hbar : ∀ c ∈ rest.head?, c ≠ '_') :
    digits Char.isDigit (ds ++ rest) = some (ds, rest) := by
  obtain ⟨d, more, rfl⟩ := List.exists_cons_of_ne_nil hds.1
  obtain ⟨hd, hmore⟩ := List.forall_mem_cons.1 hds.2
  rw [List.cons_append, digits, if_pos hd, moreDigits_append hmore hrest hbar]
  simp

/-- The exponent of a written number. -/
def exponentOf (t : Written) : Option Int :=
  t.exponent.map fun e =>
    if e.1 = some true then -(digitsValue 10 e.2 : Int) else digitsValue 10 e.2

theorem takeSign_of_isDigit {d : Char} {cs : List Char} (hd : d.isDigit = true) :
    Numeral.takeSign (d :: cs) = (false, d :: cs) := by
  unfold Numeral.takeSign
  split <;> simp_all

theorem exponent_signChars (sign : Option Bool) {ds rest : List Char} (hds : IsDigits ds)
    (hrest : EndsValue rest) : exponent (Written.signChars sign ++ ds ++ rest) =
      some (if sign = some true then -(digitsValue 10 ds : Int) else digitsValue 10 ds, rest) := by
  have hbar : ∀ c ∈ rest.head?, c ≠ '_' := by
    intro c hc
    rcases hrest c hc with rfl | rfl <;> decide
  have hdigits := digits_append hds hrest.noDigit hbar
  unfold exponent
  match sign with
  | some true => simp [Written.signChars, Numeral.takeSign, hdigits]
  | some false => simp [Written.signChars, Numeral.takeSign, hdigits]
  | none =>
    obtain ⟨d, more, rfl⟩ := List.exists_cons_of_ne_nil hds.1
    have hd : d.isDigit = true := hds.2 d List.mem_cons_self
    rw [List.cons_append] at hdigits
    simp [Written.signChars, takeSign_of_isDigit hd, hdigits]

theorem exponent?_append (t : Written) (ht : t.Proper) {rest : List Char} (hrest : EndsValue rest) :
    exponent? (t.exponentChars ++ rest) = some (exponentOf t, rest) := by
  unfold Written.exponentChars exponentOf
  cases hexp : t.exponent with
  | none =>
    simp only [Option.map_none, Option.getD_none, List.nil_append]
    cases rest with
    | nil => rfl
    | cons c cs => rcases hrest c rfl with rfl | rfl <;> rfl
  | some e =>
    have hexponent := exponent_signChars e.1 (ht.exponent e hexp) hrest
    simp only [Option.map_some, Option.getD_some, List.cons_append, exponent?, hexponent]

theorem fraction?_append (t : Written) (ht : t.Proper) {rest : List Char} (hrest : EndsValue rest) :
    fraction? (t.tailChars ++ rest) = some (t.fraction, t.exponentChars ++ rest) := by
  have hhead := head?_exponentChars t hrest
  unfold Written.tailChars
  cases hfrac : t.fraction with
  | some ds =>
    have hbar : ∀ c ∈ (t.exponentChars ++ rest).head?, c ≠ '_' := by
      intro c hc
      rcases hhead c hc with rfl | rfl | rfl <;> decide
    have hdigits := digits_append (ht.fraction ds hfrac) (noDigit_exponentChars t hrest) hbar
    simp [fraction?, hdigits]
  | none =>
    simp only [Option.map_none, Option.getD_none, List.nil_append]
    cases hnext : t.exponentChars ++ rest with
    | nil => rfl
    | cons c cs => rcases hhead c (by simp [hnext]) with rfl | rfl | rfl <;> rfl

theorem decimalDigits_append (t : Written) (ht : t.Proper) {rest : List Char}
    (hrest : EndsValue rest) :
    decimalDigits (t.whole ++ (t.tailChars ++ rest)) = some (t.whole, t.tailChars ++ rest) := by
  have hbar : ∀ c ∈ (t.tailChars ++ rest).head?, c ≠ '_' := by
    intro c hc
    rcases head?_tailChars t hrest c hc with rfl | rfl | rfl | rfl <;> decide
  have hdigits := digits_append ht.whole (noDigit_tailChars t hrest) hbar
  obtain ⟨d, more, hd⟩ := List.exists_cons_of_ne_nil ht.whole.1
  by_cases hzero : d = '0'
  · subst hzero
    obtain rfl : more = [] := by simpa [hd] using ht.leading (by simp [hd])
    simp [hd, decimalDigits]
  · rw [← hdigits, hd, List.cons_append]
    unfold decimalDigits
    split <;> simp_all

/-- What a written number stands for, by its pieces. -/
def ofWritten? (t : Written) : Option Value :=
  if t.fraction.isSome || (exponentOf t).isSome then
    real? t.negative t.whole t.fraction (exponentOf t)
  else fitting? (if t.negative then -(digitsValue 10 t.whole : Int) else digitsValue 10 t.whole)

/-- **A written number is read back from the pieces in which it was written.** -/
theorem decimal_chars (t : Written) (ht : t.Proper) {rest : List Char} (hrest : EndsValue rest) :
    decimal (t.chars ++ rest) = (ofWritten? t).map (·, rest) := by
  have hwhole := decimalDigits_append t ht hrest
  have hfraction := fraction?_append t ht hrest
  have hexponent := exponent?_append t ht hrest
  obtain ⟨d, more, hd⟩ := List.exists_cons_of_ne_nil ht.whole.1
  have hdigit : d.isDigit = true := ht.whole.2 d (by simp [hd])
  have hsign : Numeral.takeSign (t.chars ++ rest) =
      (t.negative, t.whole ++ (t.tailChars ++ rest)) := by
    cases hneg : t.negative with
    | true => simp [Written.chars, hneg, Numeral.takeSign]
    | false =>
      have hchars : t.chars ++ rest = d :: (more ++ (t.tailChars ++ rest)) := by
        simp [Written.chars, hneg, hd]
      rw [hchars, takeSign_of_isDigit hdigit, hd, List.cons_append]
  unfold decimal ofWritten?
  rw [hsign]
  dsimp only
  split
  · rename_i hinf
    rw [hd, List.cons_append, List.cons.injEq] at hinf
    obtain ⟨rfl, -⟩ := hinf
    cases hdigit
  · rename_i hnan
    rw [hd, List.cons_append, List.cons.injEq] at hnan
    obtain ⟨rfl, -⟩ := hnan
    cases hdigit
  · rw [hwhole, Option.map_eq_bind]
    simp only [Option.bind_eq_bind, Option.bind_some, hfraction, hexponent]
    by_cases hreal : (t.fraction.isSome || (exponentOf t).isSome) = true
    · rw [if_pos hreal, if_pos hreal]
      rfl
    · rw [if_neg hreal, if_neg hreal]
      rfl

/-! A written number is no date and no time: after its digits there is neither a hyphen nor a
colon. -/

theorem rest_of_number {count low high n : Nat} {ds more rest : List Char}
    (hmore : NoDigit more) (h : number count low high (ds ++ more) = some (n, rest)) :
    rest = ds.drop count ++ more := by
  unfold number at h
  dsimp only at h
  split_ifs at h with hcond
  obtain ⟨hlength, hall, -⟩ := hcond
  obtain ⟨-, rfl⟩ := Prod.mk.inj (Option.some.inj h)
  have hle : count ≤ ds.length := by
    by_contra hlt
    -- otherwise the character behind the digits is one of those taken
    have htake : (ds ++ more).take count = ds ++ more.take (count - ds.length) := by
      rw [List.take_append, List.take_of_length_le (by omega)]
    rw [htake] at hlength hall
    cases more with
    | nil => simp at hlength; omega
    | cons c cs =>
      have hc := hmore c rfl
      obtain ⟨k, hk⟩ : ∃ k, count - ds.length = k + 1 := ⟨count - ds.length - 1, by omega⟩
      rw [hk] at hall
      simp [hc] at hall
  rw [List.drop_append_of_le_length hle]

theorem mark_eq_none {c : Char} {cs : List Char} (h : ∀ d ∈ cs.head?, d ≠ c) :
    mark c cs = none := by
  cases cs with
  | nil => rfl
  | cons d cs => rw [mark, if_neg (Ne.symm (h d rfl))]

theorem moment_eq_none {ds more : List Char} (hds : ∀ c ∈ ds, c.isDigit = true)
    (hmore : ∀ c ∈ more.head?, c.isDigit = false ∧ c ≠ '-' ∧ c ≠ ':') :
    Moment.read? (ds ++ more) = none := by
  have hdigit : NoDigit more := fun c hc => (hmore c hc).1
  have hmark : ∀ (count : Nat) (c : Char), (c = '-' ∨ c = ':') →
      mark c (ds.drop count ++ more) = none := by
    intro count c hc
    refine mark_eq_none ?_
    rintro d hd rfl
    cases hdrop : ds.drop count with
    | nil =>
      rw [hdrop, List.nil_append] at hd
      obtain ⟨-, hminus, hcolon⟩ := hmore d hd
      exact hc.elim hminus hcolon
    | cons e es =>
      rw [hdrop] at hd
      obtain rfl : e = d := by simpa using hd
      have he : e.isDigit = true := hds e (List.mem_of_mem_drop (hdrop ▸ List.mem_cons_self))
      rcases hc with rfl | rfl <;> cases he
  have hdate : Date.read? (ds ++ more) = none := by
    unfold Date.read?
    cases hyear : number 4 0 9999 (ds ++ more) with
    | none => rfl
    | some r =>
      obtain ⟨year, rest⟩ := r
      rw [rest_of_number hdigit hyear]
      simp [hmark 4 '-' (.inl rfl)]
  have htime : TimeOfDay.read? (ds ++ more) = none := by
    unfold TimeOfDay.read?
    cases hhour : number 2 0 23 (ds ++ more) with
    | none => rfl
    | some r =>
      obtain ⟨hour, rest⟩ := r
      rw [rest_of_number hdigit hhour]
      simp [hmark 2 ':' (.inr rfl)]
  simp [Moment.read?, hdate, htime]

theorem moment_of_not_isDigit {c : Char} {cs : List Char} (hc : c.isDigit = false) :
    Moment.read? (c :: cs) = none := by
  simp [Moment.read?, Date.read?, TimeOfDay.read?, number, hc]

theorem moment_chars (t : Written) (ht : t.Proper) {rest : List Char} (hrest : EndsValue rest) :
    Moment.read? (t.chars ++ rest) = none := by
  cases hneg : t.negative with
  | true =>
    have hchars : t.chars ++ rest = '-' :: (t.whole ++ (t.tailChars ++ rest)) := by
      simp [Written.chars, hneg]
    rw [hchars]
    exact moment_of_not_isDigit rfl
  | false =>
    have hchars : t.chars ++ rest = t.whole ++ (t.tailChars ++ rest) := by
      simp [Written.chars, hneg]
    rw [hchars]
    refine moment_eq_none ht.whole.2 ?_
    intro c hc
    rcases head?_tailChars t hrest c hc with rfl | rfl | rfl | rfl <;> decide

/-- A leading zero stands alone, so no mark of another base follows. -/
theorem second_of_chars (t : Written) (ht : t.Proper) {rest : List Char} (hrest : EndsValue rest)
    {c : Char} {cs : List Char} (h : t.chars ++ rest = '0' :: c :: cs) :
    c = '.' ∨ c = 'e' ∨ c = ',' ∨ c = '\n' := by
  obtain ⟨d, more, hd⟩ := List.exists_cons_of_ne_nil ht.whole.1
  have hleading := ht.leading
  cases hneg : t.negative with
  | true => simp [Written.chars, hneg] at h
  | false =>
    simp only [Written.chars, hneg, hd, Bool.false_eq_true, if_false, List.nil_append,
      List.cons_append, List.append_assoc, List.cons.injEq] at h
    obtain ⟨rfl, h⟩ := h
    obtain rfl : more = [] := by simpa [hd] using hleading (by simp [hd])
    refine head?_tailChars t hrest c ?_
    rw [List.nil_append] at h
    rw [h]
    rfl

/-- **A written number is read as such.** -/
theorem scalar_chars (t : Written) (ht : t.Proper) {rest : List Char} (hrest : EndsValue rest) :
    scalar (t.chars ++ rest) = decimal (t.chars ++ rest) := by
  unfold scalar
  split
  · rename_i h
    have := second_of_chars t ht hrest h
    simp at this
  · rename_i h
    have := second_of_chars t ht hrest h
    simp at this
  · rename_i h
    have := second_of_chars t ht hrest h
    simp at this
  · rw [moment_chars t ht hrest]

theorem digitsValue_of_isDigit {ds : List Char} (hds : ∀ c ∈ ds, c.isDigit = true) (n : Nat) :
    ds.foldl (fun n c => 10 * n + (Json.hexDigit? c).getD 0) n = Nat.ofDigitChars 10 ds n := by
  induction ds generalizing n with
  | nil => rfl
  | cons c cs ih =>
    obtain ⟨hc, hcs⟩ := List.forall_mem_cons.1 hds
    have hvalue : Json.hexDigit? c = some (c.toNat - '0'.toNat) := by simp [Json.hexDigit?, hc]
    rw [List.foldl_cons, ih hcs, hvalue]
    rfl

/-- A whole number that fits 64 bits with a sign reads back. -/
theorem scalar_intText {n : Int} (hlow : -Nat.pow 2 63 ≤ n) (hhigh : n < Nat.pow 2 63)
    {rest : List Char} (hrest : EndsValue rest) :
    scalar ((intText n).toList ++ rest) = some (.int n, rest) := by
  have hvalue : digitsValue 10 (Nat.toDigits 10 n.natAbs) = n.natAbs := by
    rw [digitsValue, digitsValue_of_isDigit (isDigits_toDigits _).2]
    exact Nat.ofDigitChars_ten_toDigits
  have hfits : fitting? n = some (.int n) := by rw [fitting?, if_pos ⟨hlow, hhigh⟩]
  have hsigned : (if n < 0 then -(n.natAbs : Int) else n.natAbs) = n := by
    split_ifs <;> omega
  have hwritten : ofWritten? (.ofInt n) = some (.int n) := by
    rw [ofWritten?, if_neg (by simp [Written.ofInt, exponentOf])]
    simp only [Written.ofInt, decide_eq_true_eq, hvalue, hsigned, hfits]
  rw [intText_toList, scalar_chars _ (Written.proper_ofInt n) hrest,
    decimal_chars _ (Written.proper_ofInt n) hrest, hwritten]
  rfl

end Toml

end Document

end Lathe
