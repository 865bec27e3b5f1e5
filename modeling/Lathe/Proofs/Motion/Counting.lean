import Lathe.Motion.Finishing
import Mathlib.Order.Nat

/-!
# Counting blocks

The counter of blocks goes on by one at a time and stops at its limit.  Whether it comes through a
cycle can be seen from the number of the last block alone: on the way there it counts nothing that
is larger (`countOn?_of_le`, `countOn?_of_lt`).  So what is known of the expansion of a cycle is
known of the counted one exactly if the number of the last block is in range
(`Expansion.exists_counted?_iff`), for roughing and finishing cycles alike.
-/

namespace Lathe

variable {α : Type} {block n : ℕ} {e : Expansion α} {stamp : CycleLine}

theorem nextBlock?_of_lt (h : block < counterLimit) : nextBlock? block = some (block + 1) :=
  if_pos h

theorem nextBlock?_of_le (h : counterLimit ≤ block) : nextBlock? block = none :=
  if_neg (Nat.not_lt.2 h)

/-- The counter comes to every number that is in range. -/
theorem countOn?_of_le (h : block + n ≤ counterLimit) : countOn? block n = some (block + n) := by
  induction n generalizing block with
  | zero => rfl
  | succ n ih =>
    rw [countOn?, nextBlock?_of_lt (by omega)]
    show countOn? (block + 1) n = some (block + (n + 1))
    rw [ih (by omega), Nat.add_assoc, Nat.add_comm 1 n]

/-- It comes to no number beyond. -/
theorem countOn?_of_lt (hn : 0 < n) (h : counterLimit < block + n) : countOn? block n = none := by
  induction n generalizing block with
  | zero => exact absurd hn (Nat.lt_irrefl 0)
  | succ n ih =>
    rw [countOn?]
    rcases Nat.lt_or_ge block counterLimit with hlt | hge
    · rw [nextBlock?_of_lt hlt]
      show countOn? (block + 1) n = none
      exact ih (by omega) (by omega)
    · rw [nextBlock?_of_le hge]

namespace Expansion

theorem counted?_of_le (hle : stamp.block ≤ e.lastBlock) (h : e.lastBlock ≤ counterLimit) :
    e.counted? stamp = some e := by
  have hlast : stamp.block + (e.lastBlock - stamp.block) = e.lastBlock := Nat.add_sub_cancel' hle
  rw [counted?, countOn?_of_le (hlast.trans_le h), hlast]
  rfl

theorem counted?_of_lt (hlt : stamp.block < e.lastBlock) (h : counterLimit < e.lastBlock) :
    e.counted? stamp = none := by
  have hlast : stamp.block + (e.lastBlock - stamp.block) = e.lastBlock :=
    Nat.add_sub_cancel' hlt.le
  rw [counted?, countOn?_of_lt (Nat.sub_pos_of_lt hlt) (hlast.symm ▸ h)]
  rfl

/-- **What holds of the expansion of a cycle holds of the counted one exactly if its last block has
a number.** -/
theorem exists_counted?_iff {P : Expansion α → Prop} (hlt : stamp.block < e.lastBlock) (hP : P e) :
    (∃ e', e.counted? stamp = some e' ∧ P e') ↔ e.lastBlock ≤ counterLimit := by
  constructor
  · rintro ⟨e', he', -⟩
    by_contra hgt
    rw [counted?_of_lt hlt (Nat.lt_of_not_le hgt)] at he'
    cases he'
  · intro h
    exact ⟨e, counted?_of_le hlt.le h, hP⟩

end Expansion

end Lathe
