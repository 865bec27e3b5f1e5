import Lathe.Proofs.Decimal.Written
import Lathe.Decimal.Numeral
import Mathlib.Data.List.Basic
import Mathlib.Data.List.TakeWhile
import Mathlib.Tactic.SplitIfs

/-!
# The literals of numerals

A literal is `[+-]?(D+ ('.' D*)? | '.' D+)` with digits `D`: a point may end it, start it or stand
between digits, but it needs a digit somewhere.  `Numeral.Spells` is this grammar, and
`Numeral.ofChars?_eq_some_iff` says that exactly its texts are read, each as the numeral that it
spells.
-/

namespace Lathe

namespace Decimal

namespace Numeral

/-- The sign in front of a literal; the flag says that it is a minus. -/
inductive IsSign : List Char → Bool → Prop where
  /-- No sign. -/
  | absent : IsSign [] false
  /-- A plus sign. -/
  | plus : IsSign ['+'] false
  /-- A minus sign. -/
  | minus : IsSign ['-'] true

/-- A literal behind its sign, with its digits before and after the point. -/
inductive IsBody : List Char → List Char → List Char → Prop where
  /-- Digits without a point. -/
  | whole {ds : List Char} (h : IsDigits ds) : IsBody ds ds []
  /-- Digits and a point, behind which there may be more. -/
  | pointed {ds fs : List Char} (h : IsDigits ds) (hf : ∀ c ∈ fs, c.isDigit = true) :
      IsBody (ds ++ '.' :: fs) ds fs
  /-- A point and digits. -/
  | fraction {fs : List Char} (h : IsDigits fs) : IsBody ('.' :: fs) [] fs

/-- A text is a literal of the numeral. -/
def Spells (n : Numeral) (cs : List Char) : Prop :=
  ∃ sign body ds fs, cs = sign ++ body ∧ IsSign sign n.negative ∧ IsBody body ds fs ∧
    n.mantissa = digitsValue (ds ++ fs) ∧ n.places = fs.length

/-! ### The sign -/

theorem exists_takeSign (cs : List Char) :
    ∃ sign, IsSign sign (takeSign cs).1 ∧ cs = sign ++ (takeSign cs).2 := by
  unfold takeSign
  split
  · exact ⟨_, .minus, rfl⟩
  · exact ⟨_, .plus, rfl⟩
  · exact ⟨_, .absent, rfl⟩

theorem IsBody.head_ne {body ds fs : List Char} (h : IsBody body ds fs) (rest : List Char) :
    body ≠ '-' :: rest ∧ body ≠ '+' :: rest := by
  have hdigits : ∀ {ds : List Char}, IsDigits ds → ∀ more : List Char,
      ds ++ more ≠ '-' :: rest ∧ ds ++ more ≠ '+' :: rest := by
    rintro ds ⟨hne, hall⟩ more
    obtain ⟨d, ds, rfl⟩ := List.exists_cons_of_ne_nil hne
    have hd := hall d List.mem_cons_self
    constructor <;> rintro hcons <;> obtain rfl := (List.cons.inj hcons).1 <;> cases hd
  cases h with
  | whole h => simpa using hdigits h []
  | pointed h _ => exact hdigits h _
  | fraction h => exact ⟨by simp, by simp⟩

theorem takeSign_append {sign body ds fs : List Char} {negative : Bool} (hs : IsSign sign negative)
    (h : IsBody body ds fs) : takeSign (sign ++ body) = (negative, body) := by
  cases hs with
  | absent =>
    change takeSign body = _
    unfold takeSign
    split
    · exact absurd rfl (h.head_ne _).1
    · exact absurd rfl (h.head_ne _).2
    · rfl
  | plus => rfl
  | minus => rfl

/-! ### The digits -/

theorem ofChars?_of_spells {cs : List Char} {n : Numeral} (h : n.Spells cs) :
    ofChars? cs = some n := by
  obtain ⟨sign, body, ds, fs, rfl, hsign, hbody, hmantissa, hplaces⟩ := h
  obtain ⟨negative, mantissa, places⟩ := n
  dsimp only at hsign hmantissa hplaces
  subst hmantissa hplaces
  rw [ofChars?, takeSign_append hsign hbody]
  cases hbody with
  | whole hds =>
    have htake : body.takeWhile Char.isDigit = body := List.takeWhile_eq_self_iff.2 hds.2
    have hdrop : body.dropWhile Char.isDigit = [] := List.dropWhile_eq_nil_iff.2 hds.2
    simp only [htake, hdrop, List.append_nil, List.length_nil]
    exact if_neg (by simpa using hds.1)
  | pointed hds hfs =>
    have hpoint : ∀ c ∈ ('.' :: fs).head?, c.isDigit = false := by
      rintro c ⟨⟩
      rfl
    obtain ⟨htake, hdrop⟩ := span_append hds.2 hpoint
    simp only [htake, hdrop]
    have hall : fs.all Char.isDigit = true := List.all_eq_true.2 hfs
    exact if_pos (by simp [hall, hds.1])
  | fraction hfs =>
    have hall : fs.all Char.isDigit = true := List.all_eq_true.2 hfs.2
    have htake : ('.' :: fs).takeWhile Char.isDigit = [] := rfl
    have hdrop : ('.' :: fs).dropWhile Char.isDigit = '.' :: fs := rfl
    simp only [htake, hdrop]
    exact if_pos (by simp [hall, hfs.1])

theorem spells_of_ofChars? {cs : List Char} {n : Numeral} (h : ofChars? cs = some n) :
    n.Spells cs := by
  obtain ⟨sign, hsign, hcs⟩ := exists_takeSign cs
  rw [ofChars?] at h
  generalize takeSign cs = taken at h hsign hcs
  obtain ⟨negative, body⟩ := taken
  dsimp only at h hsign hcs
  have hwhole : ∀ c ∈ body.takeWhile Char.isDigit, c.isDigit = true := fun _ =>
    List.mem_takeWhile_imp
  have hsplit := List.takeWhile_append_dropWhile (p := Char.isDigit) (l := body)
  generalize body.takeWhile Char.isDigit = ds at h hwhole hsplit
  generalize body.dropWhile Char.isDigit = rest at h hsplit
  subst hsplit
  split at h
  · -- digits only
    split_ifs at h with hempty
    obtain rfl := Option.some.inj h
    refine ⟨sign, _, ds, [], hcs, hsign, ?_, by simp, rfl⟩
    rw [List.append_nil]
    exact .whole ⟨by simpa using hempty, hwhole⟩
  · rename_i fs
    split_ifs at h with hfraction
    obtain rfl := Option.some.inj h
    obtain ⟨hall, hsome⟩ := Bool.and_eq_true_iff.1 hfraction
    have hfs : ∀ c ∈ fs, c.isDigit = true := List.all_eq_true.1 hall
    refine ⟨sign, _, ds, fs, hcs, hsign, ?_, rfl, rfl⟩
    by_cases hds : ds = []
    · -- nothing before the point, so that a digit is behind it
      subst hds
      exact .fraction ⟨by simpa using hsome, hfs⟩
    · exact .pointed ⟨hds, hwhole⟩ hfs
  · cases h

/-- **Exactly the literals are read as numerals.** -/
theorem ofChars?_eq_some_iff {cs : List Char} {n : Numeral} :
    ofChars? cs = some n ↔ n.Spells cs :=
  ⟨spells_of_ofChars?, ofChars?_of_spells⟩

theorem ofChars?_eq_none_iff {cs : List Char} :
    ofChars? cs = none ↔ ∀ n : Numeral, ¬n.Spells cs := by
  rw [Option.eq_none_iff_forall_ne_some]
  exact forall_congr' fun n => not_congr ofChars?_eq_some_iff

end Numeral

end Decimal

end Lathe
