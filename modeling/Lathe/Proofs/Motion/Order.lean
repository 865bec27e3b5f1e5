import Lathe.Proofs.Motion.Stamps
import Lathe.Proofs.Motion.Visits
import Lathe.Proofs.Program.Reading
import Lathe.Scalar.Binary64
import Lathe.Settings.Tuning
import Lathe.Trace.Basic

/-!
# The order of a trace

Along an interpreted trace program lines and blocks never go down, and a new line comes with a new
block.  The walk numbers blocks, both cycles number them on, a roughing cycle sends the walk on
behind its contour, and subdividing copies the numbers; `Source.wellFormed_of_trace` says that all
of them together keep the order.

* `Point.Precedes` : one point may come before another.
* `Trace.WellFormed` : what an interpreted trace looks like.
-/

namespace Lathe

variable {α : Type}

/-- A point may come before another one on a trace. -/
structure Point.Precedes (a b : Point α) : Prop where
  /-- The block does not go down. -/
  block_le : a.block ≤ b.block
  /-- The program line does not go down. -/
  line_le : ∀ i j, a.line = some i → b.line = some j → i ≤ j
  /-- Another line has a block of its own. -/
  block_lt : a.line ≠ b.line → a.block < b.block

namespace Point.Precedes

theorem refl (a : Point α) : a.Precedes a := by
  refine ⟨le_rfl, fun i j hi hj => ?_, fun h => absurd rfl h⟩
  rw [hi] at hj
  exact (Option.some.inj hj).le

theorem movedTo {a b : Point α} (h : a.Precedes b) (place place' : Position α) :
    (a.movedTo place).Precedes (b.movedTo place') :=
  ⟨h.block_le, h.line_le, h.block_lt⟩

end Point.Precedes

/-- The points of a trace are those of a program, in order. -/
structure Trace.WellFormed [Scalar α] (p : Program α) (tr : Trace α) : Prop where
  /-- The trace is empty or has the start in front and nowhere else. -/
  starts : tr.points.toList = [] ∨ ∃ first rest, tr.points.toList = first :: rest ∧
    first.kind = .start ∧ ∀ q ∈ rest, q.kind ≠ .start
  /-- Every point names a line of the program that has words. -/
  named : ∀ q ∈ tr.points.toList, ∃ i l, q.line = some i ∧ p.lines[i]? = some l ∧ l.isEmpty = false
  /-- Lines and blocks go up together. -/
  ordered : tr.points.toList.Pairwise Point.Precedes
  /-- The points of a line that calls no cycle share a block. -/
  shared : ∀ a ∈ tr.points.toList, ∀ b ∈ tr.points.toList, ∀ i l, a.line = some i →
    b.line = some i → p.lines[i]? = some l → l.hasCode 70 = false → l.hasCode 71 = false →
      a.block = b.block

namespace Trace

variable [Scalar α] {tr : Trace α} {p : Program α} {a b : Point α}

omit [Scalar α] in
theorem rel_of_mem_neighbours {R : Point α → Point α → Prop}
    (h : tr.points.toList.Pairwise R) (hab : (a, b) ∈ tr.neighbours) : R a b := by
  obtain ⟨i, hi, heq⟩ := List.mem_iff_getElem.1 hab
  simp only [neighbours, List.getElem_zip, List.getElem_tail, Prod.mk.injEq] at heq
  obtain ⟨rfl, rfl⟩ := heq
  exact List.pairwise_iff_getElem.1 h _ _ _ _ (Nat.lt_succ_self i)

/-- The check of a trace for blocks that go down finds none. -/
theorem WellFormed.isMonotonic (h : tr.WellFormed p) : tr.isMonotonic = true := by
  rw [Trace.isMonotonic, List.all_eq_true]
  rintro ⟨a, b⟩ hab
  exact decide_eq_true (rel_of_mem_neighbours h.ordered hab).block_le

/-- The last block is not below the first, so that the blocks between them can be counted. -/
theorem WellFormed.block_le (h : tr.WellFormed p) (hfirst : tr.get? 0 = some a)
    (hlast : tr.last? = some b) : a.block ≤ b.block := by
  have hhead : tr.points.toList.head? = some a := by
    simpa [get?, List.head?_eq_getElem?] using hfirst
  have hmem : b ∈ tr.points.toList := by
    rw [last?, Array.back?_eq_getElem?] at hlast
    exact Array.mem_toList_iff.2 (Array.mem_of_getElem? hlast)
  have hord := h.ordered
  cases hlist : tr.points.toList with
  | nil => rw [hlist] at hmem; cases hmem
  | cons first rest =>
    rw [hlist] at hhead hmem hord
    obtain rfl : first = a := by simpa using hhead
    obtain rfl | hmem := List.mem_cons.1 hmem
    · exact le_rfl
    · exact ((List.pairwise_cons.1 hord).1 b hmem).block_le

end Trace

namespace Walk

variable [Scalar α] {t : Tuning α} {p : Program α} {s : State α} {index : Nat}

theorem exists_visit_of_mem_points {q : Point α} (h : q ∈ points t p) :
    ∃ v ∈ visits t p, q ∈ v.outcome.points :=
  List.mem_flatMap.1 h

/-- **The points of a walk are in order.** -/
theorem pairwise_precedes_points : (points t p).Pairwise Point.Precedes := by
  rw [points, List.pairwise_flatMap]
  constructor
  · intro v hv
    have hem := emits_of_mem_visitsFrom hv
    refine hem.sorted.imp_of_mem fun {a b} ha hb hle => ⟨hle, fun i j hi hj => ?_, fun hne => ?_⟩
    · rw [hem.line_eq a ha] at hi
      rw [hem.line_eq b hb, hi] at hj
      exact (Option.some.inj hj).le
    · exact absurd ((hem.line_eq a ha).trans (hem.line_eq b hb).symm) hne
  · have hpair := List.pairwise_and_iff.2
      ⟨pairwise_index_lt_visits (t := t) (p := p), pairwise_leads_visitsFrom⟩
    refine hpair.imp_of_mem fun {v w} hv hw h a ha b hb => ?_
    obtain ⟨hindex, hlead⟩ := h
    have hv := emits_of_mem_visitsFrom hv
    have hw := emits_of_mem_visitsFrom hw
    -- the earlier points are in blocks up to the state between, the later ones in blocks beyond it
    have hlt : a.block < b.block := by
      have := (hv.block_mem a ha).2
      have := hlead.block_le
      have := (hw.block_mem b hb).1
      omega
    refine ⟨hlt.le, fun i j hi hj => ?_, fun _ => hlt⟩
    rw [hv.line_eq a ha, Option.some.injEq] at hi
    rw [hw.line_eq b hb, Option.some.injEq] at hj
    omega

theorem kind_ne_of_started (hs : s.started = true) :
    ∀ q ∈ (visitsFrom t p s index).flatMap (·.outcome.points), q.kind ≠ .start := by
  intro q hq
  obtain ⟨v, hv, hq⟩ := List.mem_flatMap.1 hq
  exact ((emits_of_mem_visitsFrom hv).started ((leads_of_mem_visitsFrom hv).started hs)).2 q hq

/-- **The first point of a walk is the start, and no other is.** -/
theorem starts_of_not_started (hs : s.started = false) :
    (visitsFrom t p s index).flatMap (·.outcome.points) = [] ∨
      ∃ first rest, (visitsFrom t p s index).flatMap (·.outcome.points) = first :: rest ∧
        first.kind = .start ∧ ∀ q ∈ rest, q.kind ≠ .start := by
  fun_induction visitsFrom t p s index with
  | case1 s index hlt line o ih =>
    rw [List.flatMap_cons]
    obtain ⟨hs', hnil⟩ | ⟨hs', q, hq, hkind⟩ := (step_emits (t := t) (p := p)).starts hs
    · rw [hnil]
      exact ih hs'
    · rw [hq]
      exact .inr ⟨q, _, rfl, hkind, kind_ne_of_started hs'⟩
  | case2 => exact .inl rfl

end Walk

namespace Program

variable [Scalar α] {t : Tuning α} {p : Program α}

@[simp] theorem toList_points_trace :
    (p.trace t).points.toList = Subdivision.subdivide t.maxStep (Walk.points t p) :=
  rfl

/-- **An interpreted trace is well formed.** -/
theorem wellFormed_trace (t : Tuning α) (p : Program α) : (p.trace t).WellFormed p := by
  refine ⟨?_, fun q hq => ?_, ?_, fun a ha b hb i l hai hbi hl h₇₀ h₇₁ => ?_⟩
  · rw [toList_points_trace]
    obtain h | ⟨first, rest, h, hkind, hrest⟩ :=
      Walk.starts_of_not_started (t := t) (p := p) (s := .initial) rfl
    · exact .inl (by rw [Walk.points, Walk.visits, h]; rfl)
    · obtain ⟨more, heq, hmore⟩ := Subdivision.subdivide_cons t.maxStep first rest
      refine .inr ⟨first, more, by rw [Walk.points, Walk.visits, h, heq], hkind, fun q hq => ?_⟩
      obtain ⟨b, hb, place, rfl⟩ := hmore q hq
      exact hrest b hb
  · obtain ⟨b, hb, place, rfl⟩ := Subdivision.exists_of_mem_subdivide hq
    obtain ⟨v, hv, hb⟩ := Walk.exists_visit_of_mem_points hb
    have hem := Walk.emits_of_mem_visitsFrom hv
    refine ⟨v.index, v.line, hem.line_eq b hb, (Walk.of_mem_visitsFrom hv).2.1, ?_⟩
    rw [Bool.eq_false_iff]
    intro hempty
    rw [hem.quiet hempty] at hb
    cases hb
  · exact Subdivision.pairwise_subdivide Point.Precedes.refl
      (fun a b place place' h => h.movedTo place place') Walk.pairwise_precedes_points
  · obtain ⟨a', ha', place, rfl⟩ := Subdivision.exists_of_mem_subdivide ha
    obtain ⟨b', hb', place', rfl⟩ := Subdivision.exists_of_mem_subdivide hb
    obtain ⟨v, hv, ha'⟩ := Walk.exists_visit_of_mem_points ha'
    obtain ⟨w, hw, hb'⟩ := Walk.exists_visit_of_mem_points hb'
    have hvi : v.index = i :=
      Option.some.inj (((Walk.emits_of_mem_visitsFrom hv).line_eq a' ha').symm.trans hai)
    have hwi : w.index = i :=
      Option.some.inj (((Walk.emits_of_mem_visitsFrom hw).line_eq b' hb').symm.trans hbi)
    -- both points come from the one visit of the line
    obtain rfl := Walk.eq_of_index_eq hv hw (hvi.trans hwi.symm)
    have hline := (Walk.of_mem_visitsFrom hv).2.1
    rw [hvi, hl, Option.some.injEq] at hline
    have hplain := (Walk.emits_of_mem_visitsFrom hv).plain (hline ▸ h₇₀) (hline ▸ h₇₁)
    exact (hplain a' ha').trans (hplain b' hb').symm

end Program

/-- The standard tuning, but for moves that may be long. -/
def Tuning.coarse : Tuning Float := { (.standard : Tuning Float) with maxStep := 1000.0 }

namespace Source

theorem read_of_trace [Scalar α] {s : Source} {t : Tuning α} {tr : Trace α}
    (h : s.trace t = .ok tr) : ∃ p : Program α, Program.read s = .ok p ∧ tr = p.trace t := by
  obtain ⟨p, hp, rfl⟩ := exists_of_map_eq_ok h
  exact ⟨p, hp, rfl⟩

/-- **Every interpreted trace is well formed.**  Whatever program can be read and however the
interpreter is tuned: the trace is empty or begins with its only start, its points name lines that
have words, lines and blocks never go down and change together, and only a line that calls a cycle
has points in several blocks.  So the check for blocks that go down passes, and the last block is
not below the first. -/
theorem wellFormed_of_trace [Scalar α] {s : Source} {t : Tuning α} {tr : Trace α}
    (h : s.trace t = .ok tr) :
    ∃ p : Program α, Program.read s = .ok p ∧ tr.WellFormed p ∧ tr.isMonotonic = true ∧
      ∀ first last, tr.get? 0 = some first → tr.last? = some last → first.block ≤ last.block := by
  obtain ⟨p, hp, rfl⟩ := read_of_trace h
  have hwf := Program.wellFormed_trace t p
  exact ⟨p, hp, hwf, hwf.isMonotonic, fun first last => hwf.block_le⟩

/-- What is said of a program can be computed if the source can be read. -/
theorem exists_read_of_map_eq_some [Scalar α] {s : Source} {β : Type} {f : Program α → β} {b : β}
    (h : (Program.read s).toOption.map f = some b) : ∃ p, Program.read s = .ok p ∧ f p = b := by
  cases hp : Program.read (α := α) s with
  | error e => rw [hp] at h; cases h
  | ok p => rw [hp] at h; exact ⟨p, rfl, Option.some.inj h⟩

/-- What is read off a trace can be computed if the source can be read. -/
theorem exists_trace_of_map_eq_some [Scalar α] {s : Source} {t : Tuning α} {β : Type}
    {f : Trace α → β} {b : β} (h : (s.trace t).toOption.map f = some b) :
    ∃ tr, s.trace t = .ok tr ∧ f tr = b := by
  cases htr : s.trace t with
  | error e => rw [htr] at h; cases h
  | ok tr => rw [htr] at h; exact ⟨tr, rfl, Option.some.inj h⟩

/-- A contour that is finished twice and cut once between, from a program with comments. -/
def twoFinishes : Source :=
  ⟨#["(part 7)", "N9 G0 X30 Z2 F0.2", "", "G70 P1 Q2 M8", "N1 G0 X20", "G1 Z-10",
    "N2 X26 ; shoulder", "G70 P1 Q2", "M30"]⟩

theorem wellFormed_of_trace_twoFinishes :
    ∃ tr, twoFinishes.trace .coarse = .ok tr ∧ tr.blockSpan = 15 ∧
      ∃ p : Program Float, Program.read twoFinishes = .ok p ∧ tr.WellFormed p ∧
        tr.isMonotonic = true ∧ ∀ first last, tr.get? 0 = some first → tr.last? = some last →
          first.block ≤ last.block := by
  have hspan : (twoFinishes.trace .coarse).toOption.map Trace.blockSpan = some 15 := by
    decide +kernel
  obtain ⟨tr, htr, hspan⟩ := exists_trace_of_map_eq_some hspan
  exact ⟨tr, htr, hspan, wellFormed_of_trace htr⟩

end Source

end Lathe
