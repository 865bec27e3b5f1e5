import Lathe.Proofs.Motion.Order
import Lathe.Proofs.Motion.Padding

/-!
# Remarks

Blank lines and comments do not change what a program means.  `Source.trace_of_remarks` says so of a
line that names no address, inserted anywhere, and of a comment behind any line: the trace stays as
it is, but for the indices of the lines that move down, and a fault is reported where its line now
is.
-/

namespace Lathe

namespace Source

variable {n : Nat}

theorem strictMono_reindex : StrictMono (reindex n) := by
  intro i j hij
  unfold reindex
  split_ifs <;> omega

theorem reindex_of_lt {i : Nat} (h : i < n) : reindex n i = i :=
  if_pos h

theorem reindex_of_le {i : Nat} (h : n ≤ i) : reindex n i = i + 1 :=
  if_neg (Nat.not_lt.2 h)

end Source

namespace Program

variable {α : Type}

/-- **An inserted line without words pads a program.** -/
theorem padsTo_insertBlank (p : Program α) (n : Nat) :
    p.PadsTo (Source.reindex n) (p.insertBlank n) := by
  have hget : ∀ j : Nat, (p.insertBlank n).lines[j]? = (p.lines.toList.insertIdx n ⟨[]⟩)[j]? := by
    intro j
    rw [insertBlank, List.getElem?_toArray]
  refine ⟨Source.strictMono_reindex, fun i => ?_, fun j l hl hempty => ?_⟩
  · rw [hget, List.getElem?_insertIdx, ← Array.getElem?_toList]
    unfold Source.reindex
    split_ifs <;> first | rfl | omega
  · rw [hget, List.getElem?_insertIdx] at hl
    split_ifs at hl with hlt heq
    · exact ⟨j, Source.reindex_of_lt hlt⟩
    · cases hl
      cases hempty
    · exact ⟨j - 1, by rw [Source.reindex_of_le (by omega)]; omega⟩

end Program

namespace Source

variable {α : Type} [Scalar α]

/-- **Blank lines and comments do not change what a program means.**  However the interpreter is
tuned, and whether or not the program can be read:

* with a line that names no address inserted in front of line `n`, the trace has the same points,
  and a program that cannot be read fails with the same fault, both under the new indices of the
  lines;
* with a comment behind line `i` that closes no parenthesis, nothing changes at all. -/
theorem trace_of_remarks (t : Tuning α) (s : Source) :
    (∀ n text, Line.IsRemark text → (s.insertLine n text).trace t =
      ((s.trace t).map (·.renumber (reindex n))).mapError (·.renumber (reindex n))) ∧
    ∀ i comment, ')' ∉ comment.toList → (s.appendComment i comment).trace t = s.trace t := by
  constructor
  · intro n text htext
    rw [trace, trace, Program.read_insertLine htext]
    cases (Program.read s : Except (ReadError α) (Program α)) with
    | error e => rfl
    | ok p => exact congrArg Except.ok ((p.padsTo_insertBlank n).trace_eq t)
  · intro i comment hcomment
    rw [trace, trace, Program.read_appendComment hcomment]

/-- A remark between two lines of the contour, and a comment with an open parenthesis behind
another. -/
theorem trace_of_remarks_twoFinishes :
    ((twoFinishes.insertLine 6 "T0101 (corner)").trace .coarse).toOption.map Trace.blockSpan =
        some 15 ∧
      (twoFinishes.insertLine 6 "T0101 (corner)").trace .coarse =
        ((twoFinishes.trace .coarse).map (·.renumber (reindex 6))).mapError
          (·.renumber (reindex 6)) ∧
      (twoFinishes.appendComment 4 " M0 (face").trace .coarse = twoFinishes.trace .coarse := by
  have hremark : Line.IsRemark "T0101 (corner)" := by decide +kernel
  have hcomment : ')' ∉ " M0 (face".toList := by decide +kernel
  exact ⟨by decide +kernel, (trace_of_remarks .coarse twoFinishes).1 6 _ hremark,
    (trace_of_remarks .coarse twoFinishes).2 4 _ hcomment⟩

end Source

end Lathe
