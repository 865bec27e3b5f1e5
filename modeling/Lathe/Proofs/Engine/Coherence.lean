import Lathe.Proofs.Engine.Request
import Lathe.Proofs.Motion.Order
import Lathe.Proofs.Program.Texts

/-!
# Program, trace and status of an engine

An engine keeps the text of its program beside the trace that its player runs along, and the
status joins the two: the point under the cursor is looked up in the trace and its line in the
text.  Both are replaced when a program is loaded and left alone otherwise, so they stay those of
one program (`Engine.coherent_of_reachable`), and the line shown to the operator is the line that
the tool is on.
-/

namespace Lathe

namespace Engine

variable {α : Type} [Scalar α] {e : Engine α}

/-- A status shows the line of text that the point under the cursor comes from, and the first line
behind it with anything on it. -/
def ShowsLine (e : Engine α) (st : Status α) : Prop :=
  ∃ a i text, e.player.current? = some a ∧ a.line = some i ∧ e.source.lines[i]? = some text ∧
    Text.trim text ≠ "" ∧ st.current = some (Text.trim text) ∧ e.source.IsNext i st.next

/-- The program, its trace and the status belong together. -/
structure Coherent (e : Engine α) : Prop where
  /-- The player runs along the trace of the program. -/
  trace : e.source.trace e.tuning = .ok e.player.trace
  /-- There is a status unless the trace is empty. -/
  status?_eq_none_iff : e.status? = none ↔ e.player.trace.size = 0
  /-- It shows the line that the tool is on. -/
  shows : ∀ st, e.status? = some st → e.ShowsLine st

/-! ### The trace is that of the program -/

theorem trace_empty (t : Tuning α) : Source.empty.trace t = .ok .empty := by
  have hread : (Program.read Source.empty : Except (ReadError α) (Program α)) = .ok ⟨#[]⟩ := rfl
  have hpoints : Walk.points t (⟨#[]⟩ : Program α) = [] := by
    rw [Walk.points, Walk.visits, Walk.visitsFrom_of_le (Nat.le_refl 0)]
    rfl
  rw [Source.trace, hread]
  change Except.ok (Program.trace t ⟨#[]⟩) = _
  rw [Program.trace, hpoints]
  rfl

/-- Loading replaces the program with the trace, and nothing else touches either. -/
theorem trace_after (h : e.source.trace e.tuning = .ok e.player.trace) (hp : e.player.Sound)
    (r : Request α) :
    (e.after r).source.trace (e.after r).tuning = .ok (e.after r).player.trace := by
  have hr := e.responds r
  generalize e.after r = e', (e.perform r).2 = answer at hr ⊢
  cases hr with
  | loaded text trace htext htrace => exact htrace
  | rejected =>
    rw [Player.pause_sameCourse.trace]
    exact h
  | missing | refused => exact h
  | operated op answer hop =>
    rw [Player.trace_after hp hop]
    exact h

theorem Reachable.trace (h : e.Reachable) : e.source.trace e.tuning = .ok e.player.trace := by
  induction h with
  | new tuning playback templates => exact trace_empty tuning
  | after r h ih => exact trace_after ih h.player.sound r

/-! ### The status -/

omit [Scalar α] in
theorem status?_eq_none_iff (hp : e.player.Sound) :
    e.status? = none ↔ e.player.trace.size = 0 := by
  rw [status?, Option.map_eq_none_iff]
  constructor
  · intro hnone
    by_contra hsize
    have hlt : e.player.index < e.player.trace.size := hp.index_lt.resolve_right fun h => hsize h.2
    obtain ⟨a, ha⟩ := Player.exists_get? hlt
    rw [Player.current?, ha] at hnone
    cases hnone
  · intro hsize
    exact Array.getElem?_eq_none (by change e.player.trace.size ≤ _; omega)

theorem showsLine_of_status? (h : e.source.trace e.tuning = .ok e.player.trace) {st : Status α}
    (hst : e.status? = some st) : e.ShowsLine st := by
  obtain ⟨a, ha, rfl⟩ := Option.map_eq_some_iff.1 hst
  obtain ⟨p, hread, htrace⟩ := Source.read_of_trace h
  -- the point comes from a line with words, and the text of such a line is not blank
  have hwf := Program.wellFormed_trace e.tuning p
  rw [← htrace] at hwf
  have hmem : a ∈ e.player.trace.points.toList := Array.mem_toList_iff.2 (Array.mem_of_getElem? ha)
  obtain ⟨i, l, hline, hl, hwords⟩ := hwf.named a hmem
  obtain ⟨text, htext, hlread⟩ := Program.getElem?_of_read hread hl
  refine ⟨a, i, text, ha, hline, htext, Line.trim_ne_empty_of_read hlread hwords, ?_, ?_⟩
  · simp [Status.ofPoint, hline, Source.text?, htext]
  · have hnext : (Status.ofPoint a e.source e.player.mode).next = e.source.nextAfter? i := by
      simp [Status.ofPoint, hline]
    rw [hnext]
    exact Source.isNext_nextAfter? i

/-- **An engine's program, trace and status belong together.**  Whatever is loaded, with success or
without, and however playback is operated: the player runs along the trace of the program at hand;
there is a status unless that trace is empty; and it shows the trimmed text of the line that the
point under the cursor comes from, which is not blank, and the first line behind it that is not. -/
theorem coherent_of_reachable (h : e.Reachable) : e.Coherent :=
  ⟨h.trace, status?_eq_none_iff h.player.sound, fun _ => showsLine_of_status? h.trace⟩

/-- A program is played to its second line, and then one is turned down that cannot be read. -/
def turnedDown : Engine Float :=
  ((((Engine.new .coarse .standard .empty).after
    (.loadText "G0 X30 Z2 F0.2\n\n  G1 Z-10 (face)  \n ; next\nM30")).after (.setSpeed 5.0)).after
      (.play 0)).after (.loadText "G0 X1.2.3")

theorem coherent_turnedDown :
    turnedDown.Reachable ∧ turnedDown.Coherent ∧
      turnedDown.status?.map (fun st => (st.current, st.next)) =
        some (some "G1 Z-10 (face)", some "; next") :=
  have hr : turnedDown.Reachable := .after _ (.after _ (.after _ (.after _ (.new ..))))
  ⟨hr, coherent_of_reachable hr, by decide +kernel⟩

end Engine

end Lathe
