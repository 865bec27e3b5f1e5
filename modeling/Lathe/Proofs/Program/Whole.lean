import Lathe.Proofs.Program.Reading
import Lathe.Proofs.Scalar.Real
import Mathlib

/-!
# Programs in whole numbers

Whole numbers need no rounding, so a program in whole numbers can be read off its text by
computation (`Program.whole?`) and is the same over the reals (`Program.read_of_whole?`).
-/

namespace Lathe

namespace Scalar

theorem toNat?_natCast (n : ℕ) : toNat? (n : ℝ) = some n := by
  change (if (⌊(n : ℝ)⌋₊ : ℝ) = n then some ⌊(n : ℝ)⌋₊ else none) = _
  rw [Nat.floor_natCast, if_pos rfl]

@[simp] theorem toNat?_zero : toNat? (0 : ℝ) = some 0 := by
  exact_mod_cast toNat?_natCast 0

@[simp] theorem toNat?_one : toNat? (1 : ℝ) = some 1 := by
  exact_mod_cast toNat?_natCast 1

@[simp] theorem toNat?_ofNat (n : ℕ) [n.AtLeastTwo] :
    toNat? (ofNat(n) : ℝ) = some (OfNat.ofNat n) :=
  toNat?_natCast n

end Scalar

/-- A whole number by its sign and its magnitude. -/
def Decimal.Numeral.signed (negative : Bool) (m : ℕ) : ℤ :=
  if negative then -m else m

/-- The value of a numeral without places. -/
theorem Decimal.Numeral.value_whole (negative : Bool) (m : ℕ) :
    (⟨negative, m, 0⟩ : Numeral).value = (signed negative m : ℝ) := by
  have hm : (OfScientific.ofScientific m true 0 : ℝ) = m := by
    rw [← Rat.cast_ofScientific]
    change ((Rat.ofScientific m true 0 : ℚ) : ℝ) = m
    rw [Rat.ofScientific_true_def, pow_zero, Rat.mkRat_one, Int.cast_natCast, Rat.cast_natCast]
  have hvalue : (⟨negative, m, 0⟩ : Numeral).value =
      if negative then -(OfScientific.ofScientific m true 0 : ℝ)
      else OfScientific.ofScientific m true 0 := rfl
  rw [hvalue, hm, signed]
  push_cast
  rfl

/-! ### Words -/

namespace Word

/-- A whole number that may stand behind an address; that of a label or a code is no larger than
that of an M code. -/
def FitsWhole (k : ℤ) : Address → Prop
  | .n | .m | .g => 0 ≤ k ∧ k ≤ AuxCode.limit
  | _ => True

instance (k : ℤ) : (a : Address) → Decidable (FitsWhole k a)
  | .n | .m | .g => inferInstanceAs (Decidable (0 ≤ k ∧ k ≤ AuxCode.limit))
  | .x | .z | .u | .w | .f | .r | .p | .q => isTrue trivial

theorem inRange_of_fitsWhole {k : ℤ} {a : Address} (h : FitsWhole k a) :
    inRange a (k : ℝ) = true := by
  have hcode : 0 ≤ k ∧ k ≤ AuxCode.limit → ∃ n : ℕ, k = n ∧ n ≤ AuxCode.limit := fun ⟨h0, hk⟩ =>
    ⟨k.toNat, (Int.toNat_of_nonneg h0).symm, by omega⟩
  cases a with
  | n =>
    obtain ⟨n, rfl, hn⟩ := hcode h
    have hlimit : n ≤ codeLimit := hn.trans (by decide)
    simp [inRange, label?, Scalar.toNat?_natCast, hlimit]
  | m =>
    obtain ⟨n, rfl, hn⟩ := hcode h
    simp [inRange, aux?, Scalar.toNat?_natCast, hn]
  | g =>
    obtain ⟨n, rfl, hn⟩ := hcode h
    have hlimit : (n : ℝ) ≤ codeLimit := Nat.cast_le.2 (hn.trans (by decide))
    simp [inRange, isPreparatory, Scalar.zero_real, hlimit]
  | _ => rfl

/-- A word over other scalars. -/
def map {α β : Type} (f : α → β) (w : Word α) : Word β := ⟨w.address, f w.value⟩

/-- The word in a whole number that an item is, or that it is none. -/
def whole? (i : Item) : Option (Option (Word ℤ)) :=
  match Address.ofLetter? i.letter with
  | none => some none
  | some a => match Decimal.Numeral.ofChars? i.literal with
    | some ⟨negative, m, 0⟩ =>
      let k := Decimal.Numeral.signed negative m
      if FitsWhole k a then some (some ⟨a, k⟩) else none
    | _ => none

theorem read_whole {a : Address} {literal : List Char} {negative : Bool} {m : ℕ}
    (h : Decimal.Numeral.ofChars? literal = some ⟨negative, m, 0⟩)
    (hfits : FitsWhole (Decimal.Numeral.signed negative m) a) :
    read (α := ℝ) a literal = .ok ⟨a, Decimal.Numeral.signed negative m⟩ := by
  rw [read, h]
  dsimp only
  rw [Decimal.Numeral.value_whole, if_neg (by simp), if_pos (inRange_of_fitsWhole hfits)]

theorem ofItem_of_whole? {i : Item} {w : Option (Word ℤ)} (h : whole? i = some w) :
    ofItem (α := ℝ) i = .ok (w.map (map (↑))) := by
  unfold whole? at h
  rw [ofItem]
  cases ha : Address.ofLetter? i.letter with
  | none =>
    rw [ha] at h
    obtain rfl := Option.some.inj h
    rfl
  | some a =>
    rw [ha] at h
    dsimp only at h ⊢
    split at h
    · rename_i negative m hnumeral
      split_ifs at h with hfits
      obtain rfl := Option.some.inj h
      rw [read_whole hnumeral hfits]
      rfl
    · cases h

end Word

/-! ### Lines -/

namespace Line

/-- A line over other scalars. -/
def map {α β : Type} (f : α → β) (l : Line α) : Line β := ⟨l.words.map (Word.map f)⟩

/-- The words in whole numbers that items are. -/
def wholes? : List Item → Option (List (Word ℤ))
  | [] => some []
  | i :: is => do return (← Word.whole? i).toList ++ (← wholes? is)

/-- The line in whole numbers that a text is. -/
def whole? (text : String) : Option (Line ℤ) :=
  (wholes? (itemsOf text)).map Line.mk

theorem ofItems_of_wholes? {is : List Item} {ws : List (Word ℤ)} (h : wholes? is = some ws) :
    ofItems (α := ℝ) is = .ok (ws.map (Word.map (↑))) := by
  induction is generalizing ws with
  | nil =>
    obtain rfl := Option.some.inj h
    rfl
  | cons i is ih =>
    obtain ⟨w, hw, h⟩ := Option.bind_eq_some_iff.1 h
    obtain ⟨rest, hrest, h⟩ := Option.bind_eq_some_iff.1 h
    obtain rfl := Option.some.inj h
    refine ofItems_cons_eq_ok_iff.2 ⟨_, _, Word.ofItem_of_whole? hw, ih hrest, ?_⟩
    cases w <;> rfl

theorem read_of_whole? {text : String} {l : Line ℤ} (h : whole? text = some l) :
    read (α := ℝ) text = .ok (l.map (↑)) := by
  obtain ⟨ws, hws, rfl⟩ := Option.map_eq_some_iff.1 h
  exact read_eq_ok_iff.2 (ofItems_of_wholes? hws)

end Line

/-! ### Programs -/

namespace Program

/-- A program over other scalars. -/
def map {α β : Type} (f : α → β) (p : Program α) : Program β :=
  ⟨(p.lines.toList.map (Line.map f)).toArray⟩

/-- The lines in whole numbers that texts are. -/
def wholes? : List String → Option (List (Line ℤ))
  | [] => some []
  | text :: texts => do return (← Line.whole? text) :: (← wholes? texts)

/-- The program in whole numbers that a source is. -/
def whole? (s : Source) : Option (Program ℤ) :=
  (wholes? s.lines.toList).map fun lines => ⟨lines.toArray⟩

theorem readFrom_of_wholes? {index : ℕ} {texts : List String} {lines : List (Line ℤ)}
    (h : wholes? texts = some lines) :
    readFrom (α := ℝ) index texts = .ok (lines.map (Line.map (↑))) := by
  induction texts generalizing index lines with
  | nil =>
    obtain rfl := Option.some.inj h
    rfl
  | cons text texts ih =>
    obtain ⟨l, hl, h⟩ := Option.bind_eq_some_iff.1 h
    obtain ⟨rest, hrest, h⟩ := Option.bind_eq_some_iff.1 h
    obtain rfl := Option.some.inj h
    rw [readFrom_cons_of_ok (Line.read_of_whole? hl), ih hrest]
    rfl

/-- **A program in whole numbers reads as it is written.** -/
theorem read_of_whole? {s : Source} {p : Program ℤ} (h : whole? s = some p) :
    read (α := ℝ) s = .ok (p.map (↑)) := by
  obtain ⟨lines, hlines, rfl⟩ := Option.map_eq_some_iff.1 h
  rw [read, readFrom_of_wholes? hlines]
  rfl

end Program

end Lathe
