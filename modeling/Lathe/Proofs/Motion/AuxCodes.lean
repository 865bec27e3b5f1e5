import Lathe.Proofs.Motion.ArcPlaces
import Lathe.Proofs.Motion.Modes
import Lathe.Proofs.Motion.Order

/-!
# M codes on the way to playback

An M code reaches playback on the last point of its program line, which ends the block there.  A
line that only carries an M code leaves a mark, and one that moves leaves its path, so that there is
such a point; but a line that moves to where the tool already is leaves nothing, and its M code is
lost with the move.  `Source.aux_of_trace` says that this is the only way to lose one.

* `Walk.Visit.leadsNowhere` : the line moves to where the tool is.
* `Trace.Carries` : the trace carries the M code of a line.
-/

namespace Lathe

variable {α : Type} [Scalar α]

/-- The line has an M word, calls no cycle, and is walked over when the tool has a place. -/
def Walk.Visit.bearsAux (v : Walk.Visit α) : Bool :=
  v.before.started && v.line.has .m && !(v.line.hasCode 70 || v.line.hasCode 71)

/-- The line is a move, if it calls no cycle, and the tool is already there. -/
def Walk.Visit.leadsNowhere (v : Walk.Visit α) : Bool :=
  !v.line.isStill && v.before.modal.position.isNear (v.before.modal.target v.line)

/-- Point `k` is the last one of a program line, has the M code, and ends its block. -/
structure Trace.Carries (tr : Trace α) (line : Nat) (code : AuxCode) (k : Nat) : Prop where
  /-- The point names the line and has the code. -/
  exists_point : ∃ q, tr.get? k = some q ∧ q.line = some line ∧ q.aux = some code
  /-- No later point names the line. -/
  last : ∀ j q, k < j → tr.get? j = some q → q.line ≠ some line
  /-- Playback asks for the code at the end of the block. -/
  endsBlock : tr.endsBlock k = true

namespace Trace

variable {tr : Trace α} {q : Point α} {k : Nat}

omit [Scalar α] in
/-- The last point with a property, found from behind. -/
theorem exists_last_get? {P : Point α → Bool} (h : tr.points.toList.reverse.find? P = some q) :
    ∃ k, tr.get? k = some q ∧ ∀ j q', k < j → tr.get? j = some q' → P q' = false := by
  obtain ⟨-, i, hi, hq, hlast⟩ := List.find?_eq_some_iff_getElem.1 h
  rw [List.length_reverse] at hi
  rw [List.getElem_reverse] at hq
  refine ⟨tr.points.toList.length - 1 - i, ?_, fun j q' hj hq' => ?_⟩
  · rw [get?, ← Array.getElem?_toList, ← hq]
    exact List.getElem?_eq_getElem _
  · rw [get?, ← Array.getElem?_toList] at hq'
    obtain ⟨hlt, rfl⟩ := List.getElem?_eq_some_iff.1 hq'
    have hback := hlast (tr.points.toList.length - 1 - j) (by omega)
    rw [List.getElem_reverse] at hback
    have hj' : tr.points.toList.length - 1 - (tr.points.toList.length - 1 - j) = j := by omega
    simp only [hj'] at hback
    simpa using hback

omit [Scalar α] in
/-- Where lines and blocks go up together, the last point of a line ends its block. -/
theorem endsBlock_of_last (hord : tr.points.toList.Pairwise Point.Precedes)
    (hk : tr.get? k = some q) (hlast : ∀ j q', k < j → tr.get? j = some q' → q'.line ≠ q.line) :
    tr.endsBlock k = true := by
  unfold endsBlock
  rw [hk]
  cases hnext : tr.get? (k + 1) with
  | none => rfl
  | some next =>
    have hprecedes : q.Precedes next := by
      rw [get?, Array.getElem?_eq_some_iff] at hk hnext
      obtain ⟨hk, rfl⟩ := hk
      obtain ⟨hnext, rfl⟩ := hnext
      exact List.pairwise_iff_getElem.1 hord k (k + 1) hk hnext (Nat.lt_succ_self k)
    have hne := hlast (k + 1) next (Nat.lt_succ_self k) hnext
    exact decide_eq_true (hprecedes.block_lt hne.symm).ne

end Trace

/-! ### Lines with an M code -/

theorem Contour.pathTo_ne_nil (s : ArcSettings α) (motion : Motion) (a b : Position α)
    (radius : α) : Contour.Tracing.pathTo s motion a b radius ≠ [] := by
  unfold Contour.Tracing.pathTo
  split
  · next rotation _ =>
    obtain ⟨mid, hmid⟩ := Arc.exists_polyline_eq s a b radius rotation
    simp [hmid]
  · simp

omit [Scalar α] in
theorem Line.isEmpty_of_has {l : Line α} {a : Address} (h : l.has a = true) :
    l.isEmpty = false := by
  obtain ⟨w, hw, -⟩ := List.any_eq_true.1 h
  rw [Line.isEmpty, List.isEmpty_eq_false_iff]
  exact List.ne_nil_of_mem hw

namespace Walk

variable {t : Tuning α} {p : Program α} {v : Visit α} {code : AuxCode}

theorem isNear_entering (s : State α) (l : Line α) :
    (s.entering l).modal.position.isNear ((s.entering l).modal.target l) =
      s.modal.position.isNear (s.modal.target l) := by
  rw [entering_position, target_entering]

/-- What a line with an M word does that calls no cycle. -/
theorem outcome_of_bearsAux (hv : v ∈ visits t p) (h : v.bearsAux = true) :
    v.outcome = if v.line.isStill then
      match v.line.aux? with
      | some code => mark (v.before.entering v.line) code v.index
      | none => .quiet (v.before.entering v.line)
    else move t (v.before.entering v.line) v.line v.index := by
  simp only [Visit.bearsAux, Bool.and_eq_true, Bool.not_eq_true', Bool.or_eq_false_iff] at h
  obtain ⟨⟨hs, hm⟩, h₇₀, h₇₁⟩ := h
  exact (of_mem_visitsFrom hv).2.2.trans (step_of_plain h₇₀ h₇₁ (Line.isEmpty_of_has hm) hs)

/-- **A move that leads nowhere leaves nothing.** -/
theorem points_eq_nil_of_leadsNowhere (hv : v ∈ visits t p) (haux : v.bearsAux = true)
    (h : v.leadsNowhere = true) : v.outcome.points = [] := by
  rw [Visit.leadsNowhere, Bool.and_eq_true, Bool.not_eq_true'] at h
  obtain ⟨hstill, hnear⟩ := h
  rw [outcome_of_bearsAux hv haux, if_neg (by simp [hstill]), move]
  dsimp only
  rw [if_pos ((isNear_entering ..).trans hnear)]
  rfl

/-- **Every other line with an M code leaves points with it.** -/
theorem aux_of_not_leadsNowhere (hv : v ∈ visits t p) (haux : v.bearsAux = true)
    (hcode : v.line.aux? = some code) (h : v.leadsNowhere = false) :
    v.outcome.points ≠ [] ∧ ∀ q ∈ v.outcome.points, q.aux = some code := by
  rw [outcome_of_bearsAux hv haux]
  cases hstill : v.line.isStill with
  | true =>
    rw [if_pos rfl, hcode]
    exact ⟨List.cons_ne_nil _ _, fun q hq => by rw [List.mem_singleton.1 hq]; rfl⟩
  | false =>
    have hfar : v.before.modal.position.isNear (v.before.modal.target v.line) = false := by
      simpa [Visit.leadsNowhere, hstill] using h
    rw [if_neg Bool.false_ne_true, move]
    dsimp only
    rw [if_neg (by rw [isNear_entering, hfar]; exact Bool.false_ne_true)]
    constructor
    · rw [Ne, List.map_eq_nil_iff]
      exact Contour.pathTo_ne_nil t.arc _ _ _ _
    · intro q hq
      obtain ⟨place, -, rfl⟩ := List.mem_map.1 hq
      exact hcode

/-- Points of a line come from its one visit. -/
theorem mem_outcome_of_line_eq (hv : v ∈ visits t p) {q : Point α} (hq : q ∈ points t p)
    (hline : q.line = some v.index) : q ∈ v.outcome.points := by
  obtain ⟨w, hw, hqw⟩ := exists_visit_of_mem_points hq
  have hindex : some w.index = some v.index :=
    ((emits_of_mem_visitsFrom hw).line_eq q hqw).symm.trans hline
  rwa [← eq_of_index_eq hw hv (Option.some.inj hindex)]

end Walk

namespace Program

variable {t : Tuning α} {p : Program α} {v : Walk.Visit α}

/-- A line whose visit leaves nothing has no point on the trace. -/
theorem line_ne_of_points_eq_nil (hv : v ∈ Walk.visits t p) (h : v.outcome.points = []) :
    ∀ q ∈ (p.trace t).points.toList, q.line ≠ some v.index := by
  intro q hq hline
  obtain ⟨b, hb, place, rfl⟩ := Subdivision.exists_of_mem_subdivide hq
  have := Walk.mem_outcome_of_line_eq hv hb hline
  rw [h] at this
  cases this

/-- **The last point of a line ends its block**, and it is one that the line itself gives. -/
theorem exists_last_of_line (hv : v ∈ Walk.visits t p) (h : v.outcome.points ≠ []) :
    ∃ k, ∃ q ∈ v.outcome.points, (p.trace t).get? k = some q ∧
      (∀ j q', k < j → (p.trace t).get? j = some q' → q'.line ≠ some v.index) ∧
      (p.trace t).endsBlock k = true := by
  let names : Point α → Bool := fun q => decide (q.line = some v.index)
  have hsome : ((Walk.points t p).reverse.find? names).isSome = true := by
    obtain ⟨b, hb⟩ := List.exists_mem_of_ne_nil _ h
    rw [List.find?_isSome]
    exact ⟨b, List.mem_reverse.2 (List.mem_flatMap.2 ⟨v, hv, hb⟩),
      decide_eq_true ((Walk.emits_of_mem_visitsFrom hv).line_eq b hb)⟩
  obtain ⟨q, hq⟩ := Option.isSome_iff_exists.1 hsome
  have hline : q.line = some v.index := of_decide_eq_true (List.find?_some (p := names) hq)
  have hmem : q ∈ v.outcome.points := Walk.mem_outcome_of_line_eq hv
    (List.mem_reverse.1 (List.mem_of_find?_eq_some hq)) hline
  have hfound : (p.trace t).points.toList.reverse.find? names = some q :=
    (Subdivision.find?_reverse_subdivide fun _ _ => rfl).trans hq
  obtain ⟨k, hk, hlast⟩ := Trace.exists_last_get? hfound
  have hlast' : ∀ j q', k < j → (p.trace t).get? j = some q' → q'.line ≠ some v.index :=
    fun j q' hj hq' => of_decide_eq_false (hlast j q' hj hq')
  refine ⟨k, q, hmem, hk, hlast', ?_⟩
  exact Trace.endsBlock_of_last (wellFormed_trace t p).ordered hk (hline ▸ hlast')

end Program

namespace Source

/-- **Only a move that leads nowhere loses its M code.**  Whatever program can be read and however
the interpreter is tuned: take a line that is walked over when the tool has a place, has an M word
and calls no cycle.  Its first M word is an M code.  If the line moves to where the tool is, no
point of the trace names it; otherwise the last point that names it carries the code and ends its
block. -/
theorem aux_of_trace {s : Source} {t : Tuning α} {tr : Trace α} (h : s.trace t = .ok tr) :
    ∃ p : Program α, Program.read s = .ok p ∧ ∀ v ∈ Walk.visits t p, v.bearsAux = true →
      ∃ code, v.line.aux? = some code ∧
        if v.leadsNowhere then ∀ q ∈ tr.points.toList, q.line ≠ some v.index
        else ∃ k, tr.Carries v.index code k := by
  obtain ⟨p, hp, rfl⟩ := read_of_trace h
  refine ⟨p, hp, fun v hv haux => ?_⟩
  obtain ⟨text, -, hread⟩ := Program.exists_text_of_read hp (Walk.of_mem_visitsFrom hv).2.1
  have hm : v.line.has .m = true := by
    rw [Walk.Visit.bearsAux, Bool.and_eq_true, Bool.and_eq_true] at haux
    exact haux.1.2
  obtain ⟨code, hcode⟩ := Line.exists_aux?_of_has hread hm
  refine ⟨code, hcode, ?_⟩
  cases hnowhere : v.leadsNowhere with
  | true =>
    rw [if_pos rfl]
    exact Program.line_ne_of_points_eq_nil hv (Walk.points_eq_nil_of_leadsNowhere hv haux hnowhere)
  | false =>
    rw [if_neg Bool.false_ne_true]
    obtain ⟨hne, hcodes⟩ := Walk.aux_of_not_leadsNowhere hv haux hcode hnowhere
    obtain ⟨k, q, hq, hk, hlast, hends⟩ := Program.exists_last_of_line hv hne
    have hline := (Walk.emits_of_mem_visitsFrom hv).line_eq q hq
    exact ⟨k, ⟨q, hk, hline, hcodes q hq⟩, hlast, hends⟩

/-- A cut with coolant, an optional stop on a move to where the tool is, and the end. -/
def coolantCut : Source :=
  ⟨#["G0 X20 Z5", "G1 Z-10 F0.2 M8", "G1 X20 M1", "M30"]⟩

theorem aux_of_trace_coolantCut :
    ∃ tr, coolantCut.trace .coarse = .ok tr ∧
      tr.points.toList.map (·.aux) = [none, some ⟨8⟩, some ⟨30⟩] ∧
      ∃ p : Program Float, Program.read coolantCut = .ok p ∧
        ∀ v ∈ Walk.visits .coarse p, v.bearsAux = true → ∃ code, v.line.aux? = some code ∧
          if v.leadsNowhere then ∀ q ∈ tr.points.toList, q.line ≠ some v.index
          else ∃ k, tr.Carries v.index code k := by
  have hcodes : (coolantCut.trace .coarse).toOption.map (·.points.toList.map (·.aux)) =
      some [none, some ⟨8⟩, some ⟨30⟩] := by decide +kernel
  obtain ⟨tr, htr, hcodes⟩ := exists_trace_of_map_eq_some hcodes
  exact ⟨tr, htr, hcodes, aux_of_trace htr⟩

/-- The end of the program on a move to where the tool is. -/
def endOnTheSpot : Source :=
  ⟨#["G0 X20 Z5", "G1 X20 Z5 M30"]⟩

/-- The M30 of the second line is on no point. -/
theorem not_carries_endOnTheSpot :
    ∃ p : Program Float, Program.read endOnTheSpot = .ok p ∧
      endOnTheSpot.trace .standard = .ok (p.trace .standard) ∧
      ∃ v ∈ Walk.visits .standard p, v.bearsAux = true ∧ v.line.aux? = some ⟨30⟩ ∧
        ∀ q ∈ (p.trace .standard).points.toList, q.line ≠ some v.index := by
  have hread : (Program.read (α := Float) endOnTheSpot).toOption.map (fun p : Program Float =>
      (Walk.visits .standard p).any fun v => v.bearsAux && v.line.aux? = some ⟨30⟩ &&
        (p.trace .standard).points.toList.all fun q => q.line ≠ some v.index) = some true := by
    decide +kernel
  cases hp : Program.read (α := Float) endOnTheSpot with
  | error e => rw [hp] at hread; cases hread
  | ok p =>
    rw [hp] at hread
    obtain ⟨v, hv, hlost⟩ := List.any_eq_true.1 (Option.some.inj hread)
    simp only [Bool.and_eq_true, decide_eq_true_eq, List.all_eq_true] at hlost
    refine ⟨p, rfl, ?_, v, hv, hlost.1.1, hlost.1.2, hlost.2⟩
    rw [trace, hp]
    rfl

end Source

end Lathe
