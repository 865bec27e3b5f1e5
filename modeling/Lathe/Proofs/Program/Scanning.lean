import Lathe.Program.Word
import Lathe.Proofs.Decimal.Written
import Mathlib

/-!
# Scanning a line

The scanner looks at one character after the other; here is what it finds.

* `Uncommented` : a text without its comments (`uncommented_iff`).
* `Item.Scanned` : a text with its items.  Each letter opens an item with all blanks and the longest
  literal after it, and everything between items is passed over (`Item.scanned_iff`).
-/

namespace Lathe

/-! ### Comments -/

/-- A text with what is left of it when its comments are out. -/
inductive Uncommented : List Char → List Char → Prop where
  /-- The end of the line. -/
  | done : Uncommented [] []
  /-- A semicolon hides the rest of the line. -/
  | semicolon (hidden : List Char) : Uncommented (';' :: hidden) []
  /-- An open parenthesis that is not closed does too. -/
  | unclosed {hidden : List Char} (h : ')' ∉ hidden) : Uncommented ('(' :: hidden) []
  /-- One that is closed hides what it encloses. -/
  | enclosed {hidden cs out : List Char} (h : ')' ∉ hidden) (hcs : Uncommented cs out) :
      Uncommented ('(' :: (hidden ++ ')' :: cs)) out
  /-- Every other character stays. -/
  | kept {c : Char} {cs out : List Char} (hc : c ≠ ';') (hc' : c ≠ '(') (hcs : Uncommented cs out) :
      Uncommented (c :: cs) (c :: out)

theorem uncommented_append_of_notMem {hidden : List Char} (h : ')' ∉ hidden) (cs : List Char) :
    uncommented true (hidden ++ cs) = uncommented true cs := by
  induction hidden with
  | nil => rfl
  | cons c hidden ih =>
    rw [List.mem_cons, not_or] at h
    have hopen : (c != ')') = true := bne_iff_ne.2 (Ne.symm h.1)
    rw [List.cons_append, uncommented, if_pos rfl, hopen, ih h.2]

theorem uncommented_of_uncommented {cs out : List Char} (h : Uncommented cs out) :
    uncommented false cs = out := by
  induction h with
  | done => rfl
  | semicolon hidden => rfl
  | @unclosed hidden h =>
    have hhidden := uncommented_append_of_notMem h []
    rw [List.append_nil] at hhidden
    exact hhidden
  | @enclosed hidden cs out h _ ih =>
    have hhidden := uncommented_append_of_notMem h (')' :: cs)
    exact hhidden.trans ih
  | kept hc hc' _ ih => rw [uncommented, if_neg nofun, if_neg hc, if_neg hc', ih]

/-- A parenthesis is closed somewhere or not at all. -/
theorem mem_or_exists_close (cs : List Char) :
    ')' ∉ cs ∨ ∃ hidden rest, cs = hidden ++ ')' :: rest ∧ ')' ∉ hidden := by
  by_cases h : ')' ∈ cs
  · obtain ⟨hidden, rest, rfl, hhidden⟩ := List.eq_append_cons_of_mem h
    exact .inr ⟨hidden, rest, rfl, hhidden⟩
  · exact .inl h

theorem exists_uncommented (cs : List Char) : ∃ out, Uncommented cs out := by
  -- on the length, since a parenthesis is passed over at once
  induction hn : cs.length using Nat.strongRecOn generalizing cs with
  | ind n ih =>
    cases cs with
    | nil => exact ⟨[], .done⟩
    | cons c cs =>
      by_cases hsemicolon : c = ';'
      · subst hsemicolon
        exact ⟨[], .semicolon cs⟩
      by_cases hopen : c = '('
      · subst hopen
        obtain h | ⟨hidden, rest, rfl, hhidden⟩ := mem_or_exists_close cs
        · exact ⟨[], .unclosed h⟩
        · obtain ⟨out, hout⟩ := ih rest.length (by simp [← hn]; omega) rest rfl
          exact ⟨out, .enclosed hhidden hout⟩
      · obtain ⟨out, hout⟩ := ih cs.length (by simp [← hn]) cs rfl
        exact ⟨c :: out, .kept hsemicolon hopen hout⟩

/-- **Comments are left out as the grammar says.** -/
theorem uncommented_iff {cs out : List Char} : Uncommented cs out ↔ uncommented false cs = out := by
  refine ⟨uncommented_of_uncommented, ?_⟩
  rintro rfl
  obtain ⟨out, hout⟩ := exists_uncommented cs
  rwa [uncommented_of_uncommented hout]

/-! ### Items -/

namespace Item

/-- A blank that may stand between a letter and its literal. -/
def IsBlank (c : Char) : Prop :=
  c = ' ' ∨ c = '\t'

/-- A character of a literal. -/
def IsNumeric (c : Char) : Prop :=
  c.isDigit = true ∨ c = '.' ∨ c = '+' ∨ c = '-'

/-- A text with its items. -/
inductive Scanned : List Char → List Item → Prop where
  /-- The end of the line. -/
  | done : Scanned [] []
  /-- What is no letter is passed over. -/
  | skip {c : Char} {cs : List Char} {is : List Item} (hc : c.isAlpha = false)
      (hcs : Scanned cs is) : Scanned (c :: cs) is
  /-- A letter, all blanks after it, and the longest literal after those. -/
  | item {c : Char} {blanks literal rest : List Char} {is : List Item} (hc : c.isAlpha = true)
      (hblanks : ∀ b ∈ blanks, IsBlank b) (hblank : ∀ b ∈ (literal ++ rest).head?, ¬IsBlank b)
      (hliteral : ∀ d ∈ literal, IsNumeric d) (hrest : ∀ d ∈ rest.head?, ¬IsNumeric d)
      (hcs : Scanned rest is) : Scanned (c :: (blanks ++ (literal ++ rest))) (⟨c, literal⟩ :: is)

theorem isGap_eq_true_iff {c : Char} : isGap c = true ↔ IsBlank c := by
  simp [isGap, IsBlank]

theorem isLiteral_eq_true_iff {c : Char} : isLiteral c = true ↔ IsNumeric c := by
  simp only [isLiteral, Bool.or_eq_true, decide_eq_true_eq, IsNumeric]
  tauto

theorem head?_dropWhile {p : Char → Bool} {cs : List Char} :
    ∀ c ∈ (cs.dropWhile p).head?, p c = false := by
  intro c hc
  have hnot := List.head?_dropWhile_not p cs
  rw [Option.mem_def.1 hc] at hnot
  exact hnot

theorem split_of_scanned {cs : List Char} {is : List Item} (h : Scanned cs is) :
    split cs = is := by
  induction h with
  | done => rw [split]
  | skip hc _ ih => rw [split, if_neg (by simp [hc]), ih]
  | item hc hblanks hblank hliteral hrest _ ih =>
    have hgap := span_append (p := isGap) (fun b hb => isGap_eq_true_iff.2 (hblanks b hb))
      fun b hb => Bool.eq_false_iff.2 (mt isGap_eq_true_iff.1 (hblank b hb))
    have hrun := span_append (p := isLiteral) (fun d hd => isLiteral_eq_true_iff.2 (hliteral d hd))
      fun d hd => Bool.eq_false_iff.2 (mt isLiteral_eq_true_iff.1 (hrest d hd))
    rw [split, if_pos hc]
    simp only [hgap.2, hrun.1, hrun.2, ih]

theorem scanned_split (cs : List Char) : Scanned cs (split cs) := by
  fun_induction split cs with
  | case1 => exact .done
  | case2 c cs hc body ih =>
    have hnext : ∀ b ∈ body.head?, ¬IsBlank b := fun b hb =>
      mt isGap_eq_true_iff.2 (by simp [head?_dropWhile b hb])
    have hblanks : ∀ b ∈ cs.takeWhile isGap, IsBlank b := fun b hb =>
      isGap_eq_true_iff.1 (List.mem_takeWhile_imp hb)
    have hliteral : ∀ d ∈ body.takeWhile isLiteral, IsNumeric d := fun d hd =>
      isLiteral_eq_true_iff.1 (List.mem_takeWhile_imp hd)
    have hrest : ∀ d ∈ (body.dropWhile isLiteral).head?, ¬IsNumeric d := fun d hd =>
      mt isLiteral_eq_true_iff.2 (by simp [head?_dropWhile d hd])
    have hbody : body.takeWhile isLiteral ++ body.dropWhile isLiteral = body :=
      List.takeWhile_append_dropWhile
    have hcs : cs.takeWhile isGap ++ body = cs := List.takeWhile_append_dropWhile
    have hscanned := Scanned.item hc hblanks (by rwa [hbody]) hliteral hrest ih
    rwa [hbody, hcs] at hscanned
  | case3 c cs hc ih => exact .skip (Bool.eq_false_iff.2 hc) ih

/-- **Items are split off as the grammar says.** -/
theorem scanned_iff {cs : List Char} {is : List Item} : Scanned cs is ↔ split cs = is := by
  refine ⟨split_of_scanned, ?_⟩
  rintro rfl
  exact scanned_split cs

end Item

end Lathe
