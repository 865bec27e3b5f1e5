import Lathe.Proofs.Program.Reading
import Mathlib.Data.List.DropRight
import Mathlib.Data.List.TakeWhile
import Mathlib.Tactic.SplitIfs

/-!
# Lines as the operator reads them

The operator reads lines trimmed, and passes over those with nothing on them.  A line that has
words is not blank (`Line.trim_ne_empty_of_read`), and the line shown as the next one is the first
one behind that is not (`Source.isNext_nextAfter?`).
-/

namespace Lathe

namespace Text

variable {c d : Char}

theorem trimList_eq_nil_iff {cs : List Char} : trimList cs = [] ↔ ∀ c ∈ cs, isBlank c = true := by
  change (cs.dropWhile isBlank).rdropWhile isBlank = [] ↔ _
  rw [List.rdropWhile_eq_nil_iff, ← List.dropWhile_eq_nil_iff, List.dropWhile_idempotent,
    List.dropWhile_eq_nil_iff]

theorem trim_eq_empty_iff {text : String} :
    trim text = "" ↔ ∀ c ∈ text.toList, isBlank c = true := by
  rw [trim, ← trimList_eq_nil_iff, ← String.toList_inj]
  simp

theorem isAlpha_of_isBlank (hc : isBlank c = true) : c.isAlpha = false := by
  have hrange : c.toNat ≤ 32 ∨ 128 ≤ c.toNat := by
    simp [isBlank, blankRanges] at hc
    omega
  rw [Bool.eq_false_iff]
  intro halpha
  obtain hupper | hlower := Bool.or_eq_true_iff.1 halpha
  · have hbounds : 65 ≤ c.toNat ∧ c.toNat ≤ 90 := of_decide_eq_true hupper
    omega
  · obtain ⟨hle, hge⟩ := Bool.and_eq_true_iff.1 hlower
    have hlow : 97 ≤ c.toNat := of_decide_eq_true hle
    have hhigh : c.toNat ≤ 122 := of_decide_eq_true hge
    omega

theorem toUpper_of_not_isAlpha (hc : c.isAlpha = false) : c.toUpper = c := by
  have hlower : c.isLower = false := (Bool.or_eq_false_iff.1 hc).2
  refine dif_neg ?_
  rintro ⟨hle, hge⟩
  obtain hlow | hhigh := Bool.and_eq_false_iff.1 hlower
  · exact of_decide_eq_false hlow hle
  · exact of_decide_eq_false hhigh hge

/-- A blank character is its own capital form. -/
theorem capital_of_isBlank (hc : isBlank c = true) : capital c = [c] := by
  have hforeign : foreignCapitals.lookup c = none := by
    rw [List.lookup_eq_none_iff]
    intro form hform
    rw [bne_iff_ne]
    rintro rfl
    have hnot : ∀ form ∈ foreignCapitals, isBlank form.1 = false := by decide
    rw [hnot form hform] at hc
    cases hc
  unfold capital
  rw [hforeign]
  split_ifs
  · rw [toUpper_of_not_isAlpha (isAlpha_of_isBlank hc)]
  · rfl

theorem capitals_of_isBlank {cs : List Char} (h : ∀ c ∈ cs, isBlank c = true) :
    capitals cs = cs := by
  induction cs with
  | nil => rfl
  | cons c cs ih =>
    obtain ⟨hc, hcs⟩ := List.forall_mem_cons.1 h
    rw [capitals, List.flatMap_cons, capital_of_isBlank hc]
    exact congrArg (c :: ·) (ih hcs)

end Text

/-! ### Blank lines -/

theorem mem_of_mem_uncommented {c : Char} {inside : Bool} {cs : List Char}
    (h : c ∈ uncommented inside cs) : c ∈ cs := by
  induction cs generalizing inside with
  | nil => cases h
  | cons d cs ih =>
    rw [uncommented] at h
    split_ifs at h
    · exact List.mem_cons_of_mem d (ih h)
    · cases h
    · exact List.mem_cons_of_mem d (ih h)
    · obtain rfl | h := List.mem_cons.1 h
      · exact List.mem_cons_self
      · exact List.mem_cons_of_mem d (ih h)

theorem Item.split_of_not_isAlpha {cs : List Char} (h : ∀ c ∈ cs, c.isAlpha = false) :
    split cs = [] := by
  induction cs with
  | nil => rw [split]
  | cons c cs ih =>
    obtain ⟨hc, hcs⟩ := List.forall_mem_cons.1 h
    rw [split, if_neg (by simp [hc]), ih hcs]

namespace Line

variable {α : Type} [Scalar α]

/-- A blank line has no items. -/
theorem itemsOf_of_trim_eq_empty {text : String} (h : Text.trim text = "") : itemsOf text = [] := by
  have hblank : ∀ c ∈ uncommented false text.toList, Text.isBlank c = true :=
    fun c hc => Text.trim_eq_empty_iff.1 h c (mem_of_mem_uncommented hc)
  rw [itemsOf, Text.capitals_of_isBlank hblank]
  exact Item.split_of_not_isAlpha fun c hc => Text.isAlpha_of_isBlank (hblank c hc)

/-- **A line that has words is not blank.** -/
theorem trim_ne_empty_of_read {text : String} {l : Line α} (h : read text = .ok l)
    (hl : l.isEmpty = false) : Text.trim text ≠ "" := by
  intro htrim
  have hread : read (α := α) text = .ok ⟨[]⟩ := by
    rw [read, itemsOf_of_trim_eq_empty htrim]
    rfl
  rw [hread] at h
  cases h
  cases hl

end Line

/-! ### The next line -/

namespace Source

/-- A text is the first line from line `i` on that is not blank, trimmed; none stands for no such
line. -/
def IsFirst (s : Source) (i : Nat) : Option String → Prop
  | none => ∀ j line, i ≤ j → s.lines[j]? = some line → Text.trim line = ""
  | some text => text ≠ "" ∧ ∃ j line, i ≤ j ∧ s.lines[j]? = some line ∧ Text.trim line = text ∧
      ∀ k blank, i ≤ k → k < j → s.lines[k]? = some blank → Text.trim blank = ""

/-- A text is the first line behind line `i` that is not blank. -/
def IsNext (s : Source) (i : Nat) (text : Option String) : Prop := s.IsFirst (i + 1) text

variable {s : Source}

theorem isFirst_firstFrom? (i : Nat) : s.IsFirst i (s.firstFrom? i) := by
  fun_induction s.firstFrom? i with
  | case1 i hi text hblank ih =>
    have hline : ∀ line, s.lines[i]? = some line → Text.trim line = "" := by
      intro line hline
      rw [Array.getElem?_eq_getElem hi, Option.some.injEq] at hline
      subst hline
      simpa [text] using hblank
    cases hfirst : s.firstFrom? (i + 1) with
    | none =>
      rw [hfirst] at ih
      intro j line hj hget
      obtain rfl | hlt := Nat.eq_or_lt_of_le hj
      · exact hline line hget
      · exact ih j line hlt hget
    | some first =>
      rw [hfirst] at ih
      obtain ⟨hne, j, line, hj, hget, htrim, hclear⟩ := ih
      refine ⟨hne, j, line, by omega, hget, htrim, fun k blank hk hkj hget => ?_⟩
      obtain rfl | hlt := Nat.eq_or_lt_of_le hk
      · exact hline blank hget
      · exact hclear k blank hlt hkj hget
  | case2 i hi text hblank =>
    refine ⟨by simpa using hblank, i, s.lines[i], le_rfl, Array.getElem?_eq_getElem hi, rfl, ?_⟩
    intro k blank hk hki
    omega
  | case3 i hi =>
    intro j line hj hget
    rw [Array.getElem?_eq_none (by omega)] at hget
    cases hget

/-- **The next line shown is the first one behind that is not blank.** -/
theorem isNext_nextAfter? (i : Nat) : s.IsNext i (s.nextAfter? i) :=
  isFirst_firstFrom? (i + 1)

end Source

end Lathe
