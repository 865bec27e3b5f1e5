import Lathe.Proofs.Motion.Announcements
import Lathe.Proofs.Motion.Padding

/-!
# Skipped lines

A roughing cycle cuts the contour that its labels name, and the walk goes on behind the line that Q
names.  The lines between are skipped: a contour that has been roughed is not cut once more at full
depth.  Everything else is walked over, line by line.

`Walk.proceeds` says that the walk visits, in order and once each, exactly the lines that no cycle
skips, and that skipped lines leave no point on the trace.  It does not matter what the cycle makes
of its contour: the line that Q names decides alone.

* `Program.IsDeclaredBy` : the line that a label names is the last one to declare it.
* `Walk.Visit.Skips` : a visit skips a line.
* `Walk.Proceeds` : how a walk goes through its program.
-/

namespace Lathe

variable {α : Type} [Scalar α]

/-! ### Labels -/

namespace Program

/-- The line with index `i` declares a label, and no later line does. -/
structure IsDeclaredBy (p : Program α) (label i : Nat) : Prop where
  /-- The line declares it. -/
  declares : ∃ l, p.lines[i]? = some l ∧ l.label? = some label
  /-- No later line declares it again. -/
  last : ∀ j l, i < j → p.lines[j]? = some l → l.label? ≠ some label

variable {p : Program α} {label i : Nat}

theorem IsDeclaredBy.unique {j : Nat} (hi : p.IsDeclaredBy label i) (hj : p.IsDeclaredBy label j) :
    i = j := by
  obtain ⟨l, hline, hl⟩ := hi.declares
  obtain ⟨l', hline', hl'⟩ := hj.declares
  rcases Nat.lt_trichotomy i j with h | h | h
  · exact absurd hl' (hi.last j l' h hline')
  · exact h
  · exact absurd hl (hj.last i l h hline)

theorem mem_labels_iff :
    (label, i) ∈ p.labels ↔ ∃ l, p.lines[i]? = some l ∧ l.label? = some label := by
  rw [labels, List.mem_filterMap]
  constructor
  · rintro ⟨⟨l, j⟩, hmem, hl⟩
    obtain ⟨label', hl', heq⟩ := Option.map_eq_some_iff.1 hl
    obtain ⟨rfl, rfl⟩ := Prod.mk.inj heq
    exact ⟨l, mem_zipIdx_iff.1 hmem, hl'⟩
  · rintro ⟨l, hline, hl⟩
    exact ⟨(l, i), mem_zipIdx_iff.2 hline, Option.map_eq_some_iff.2 ⟨label, hl, rfl⟩⟩

theorem pairwise_labels : p.labels.Pairwise fun a b => a.2 < b.2 := by
  refine pairwise_zipIdx.filterMap _ fun a b hab c hc d hd => ?_
  obtain ⟨-, -, rfl⟩ := Option.map_eq_some_iff.1 hc
  obtain ⟨-, -, rfl⟩ := Option.map_eq_some_iff.1 hd
  exact hab

theorem isDeclaredBy_of_lineOf? (h : p.lineOf? label = some i) : p.IsDeclaredBy label i := by
  obtain ⟨⟨label', j⟩, hfind, rfl⟩ := Option.map_eq_some_iff.1 h
  obtain ⟨heq, later, earlier, hsplit, hlater⟩ := List.find?_eq_some_iff_append.1 hfind
  obtain rfl : label' = label := of_decide_eq_true heq
  have hlabels : p.labels = earlier.reverse ++ (label', j) :: later.reverse := by
    rw [← List.reverse_reverse p.labels, hsplit]
    simp
  have hsorted := pairwise_labels (p := p)
  rw [hlabels] at hsorted
  refine ⟨mem_labels_iff.1 (hlabels ▸ List.mem_append_cons_self), fun k l hjk hline hl => ?_⟩
  have hk : (label', k) ∈ p.labels := mem_labels_iff.2 ⟨l, hline, hl⟩
  rw [hlabels, List.mem_append, List.mem_cons, List.mem_reverse, List.mem_reverse] at hk
  obtain hk | hk | hk := hk
  -- a declaration before the one found is on an earlier line
  · have hkj := (List.pairwise_append.1 hsorted).2.2 _ (List.mem_reverse.2 hk) _ List.mem_cons_self
    exact absurd hjk (Nat.lt_asymm hkj)
  · exact absurd (Prod.mk.inj hk).2 hjk.ne'
  -- and one behind it would have been found first
  · simpa using hlater _ hk

/-- **A label names the last line that declares it.** -/
theorem lineOf?_eq_some_iff : p.lineOf? label = some i ↔ p.IsDeclaredBy label i := by
  refine ⟨isDeclaredBy_of_lineOf?, fun h => ?_⟩
  have hmem : (label, i) ∈ p.labels := mem_labels_iff.2 h.declares
  cases hline : p.lineOf? label with
  | none =>
    have hnone := List.find?_eq_none.1 (Option.map_eq_none_iff.1 hline) _ (List.mem_reverse.2 hmem)
    exact absurd (decide_eq_true rfl) hnone
  | some j => rw [h.unique (isDeclaredBy_of_lineOf? hline)]

end Program

/-! ### One line -/

theorem Contour.labelOf_eq_ok_iff {v : α} {label : Nat} :
    labelOf v = .ok label ↔ Word.label? v = some label := by
  unfold labelOf
  cases Word.label? v <;> simp

namespace Line

variable {l : Line α} {first last : Nat}

omit [Scalar α] in
theorem exists_value?_of_has {a : Address} (h : l.has a = true) : ∃ v, l.value? a = some v := by
  obtain ⟨w, hfind⟩ := Option.isSome_iff_exists.1 (List.find?_isSome.2 (List.any_eq_true.1 h))
  exact ⟨w.value, by rw [value?, hfind]; rfl⟩

/-- The labels of a cycle are the values of its P and Q words, if both may be labels. -/
theorem cycleLabels_eq_ok_iff (h : l.hasLabels = true) :
    l.cycleLabels = .ok (first, last) ↔
      (l.value? .p).bind Word.label? = some first ∧ (l.value? .q).bind Word.label? = some last := by
  obtain ⟨hp, hq⟩ := Bool.and_eq_true_iff.1 h
  obtain ⟨a, ha⟩ := exists_value?_of_has hp
  obtain ⟨b, hb⟩ := exists_value?_of_has hq
  unfold cycleLabels
  rw [ha, hb, Option.getD_some, Option.getD_some, Option.bind_some, Option.bind_some,
    ← Contour.labelOf_eq_ok_iff, ← Contour.labelOf_eq_ok_iff]
  cases Contour.labelOf a with
  | error e => simp [bind, Except.bind]
  | ok first' => cases Contour.labelOf b <;> simp [bind, Except.bind, pure, Except.pure]

/-- Only a line that calls a roughing cycle is one. -/
theorem callsRoughing_of_action (h : l.action = .rough) : l.callsRoughing = true := by
  by_contra hcalls
  rw [Bool.not_eq_true] at hcalls
  cases hcut : l.announced? 0.0 with
  | some cut =>
    obtain ⟨depth, hannounce, -⟩ := action_of_announced? hcut
    rw [hannounce] at h
    cases h
  | none =>
    have hspares := spares_of_announced? hcalls hcut
    rw [h] at hspares
    cases hspares

end Line

namespace Walk

variable {t : Tuning α} {p : Program α} {s : State α} {l : Line α} {index j : Nat} {v : Visit α}

/-- The walk goes on behind the line that Q names, if both labels are valid and some line declares
that of Q. -/
theorem resumeLine?_eq_some_iff (h : l.hasLabels = true) :
    resumeLine? p l = some j ↔ ∃ first last, (l.value? .p).bind Word.label? = some first ∧
      (l.value? .q).bind Word.label? = some last ∧ p.IsDeclaredBy last j := by
  simp only [← Program.lineOf?_eq_some_iff, ← and_assoc, ← Line.cycleLabels_eq_ok_iff h]
  unfold resumeLine?
  cases l.cycleLabels with
  | error e => simp [Except.toOption]
  | ok labels => obtain ⟨first, last⟩ := labels; simp [Except.toOption]

theorem resume_start : (start s l index).resume = none := by
  unfold start
  dsimp only
  split_ifs <;> rfl

theorem resume_move : (move t s l index).resume = none := by
  unfold move
  dsimp only
  split_ifs <;> rfl

theorem resume_finish : (finish t p s l index).resume = none := by
  unfold finish
  split <;> rfl

theorem resume_rough : (rough t p s l index).resume = resumeLine? p l := by
  unfold rough
  dsimp only
  split <;> rfl

theorem resume_perform : (perform t p s l index).resume =
    if l.callsRoughing then resumeLine? p l else none := by
  by_cases hcalls : l.callsRoughing = true
  · rw [if_pos hcalls, perform, Line.action_of_callsRoughing hcalls]
    exact resume_rough
  · rw [if_neg hcalls, perform]
    cases haction : l.action with
    | rough => exact absurd (Line.callsRoughing_of_action haction) hcalls
    | move => exact resume_move
    | finish => exact resume_finish
    | mark code => rfl
    | announce depth => rfl
    | nothing => rfl

/-- **Where the walk goes on.**  Only a roughing cycle sends it on, once the tool has a place. -/
theorem resume_step : (step t p s l index).resume =
    if s.started && l.callsRoughing then resumeLine? p l else none := by
  unfold step
  by_cases hempty : l.isEmpty = true
  · have hwords : l.words = [] := List.isEmpty_iff.1 hempty
    simp [hempty, Outcome.quiet, Line.callsRoughing, Line.hasCode, Line.codes, hwords]
  · rw [if_neg hempty]
    dsimp only
    rw [entering_started]
    cases s.started with
    | true => exact resume_perform
    | false => exact resume_start

/-! ### Skipped lines -/

/-- A visit skips the line with index `j`: it is a roughing cycle, performed when the tool has a
place, whose labels are valid, and the line lies behind it, up to the last line that declares the
label of Q. -/
structure Visit.Skips (p : Program α) (v : Visit α) (j : Nat) : Prop where
  /-- The tool has a place. -/
  started : v.before.started = true
  /-- The line is a roughing cycle. -/
  calls : v.line.callsRoughing = true
  /-- It names two labels, and the line lies behind it up to the one that the second names. -/
  within : ∃ first last stop, (v.line.value? .p).bind Word.label? = some first ∧
    (v.line.value? .q).bind Word.label? = some last ∧ p.IsDeclaredBy last stop ∧
      v.index < j ∧ j ≤ stop

omit [Scalar α] in
/-- The lines that are passed over on the way to the next one. -/
theorem Outcome.lt_next_iff {o : Outcome α} (h : index < j) :
    j < o.next index ↔ ∃ stop, o.resume = some stop ∧ j ≤ stop := by
  have hmax : j < o.next index ↔ j ≤ o.resume.getD index ∨ j ≤ index :=
    Nat.lt_succ_iff.trans le_max_iff
  rw [hmax, or_iff_left h.not_ge]
  cases o.resume with
  | none => exact ⟨fun hj => absurd h hj.not_gt, fun ⟨_, hnone, _⟩ => nomatch hnone⟩
  | some stop =>
    refine ⟨fun hj => ⟨stop, rfl, hj⟩, ?_⟩
    rintro ⟨_, hstop, hj⟩
    exact Option.some.inj hstop ▸ hj

/-- **A visit skips the lines between its own and the one at which the walk goes on.** -/
theorem skips_iff (hv : v.outcome = step t p v.before v.line v.index) :
    v.Skips p j ↔ v.index < j ∧ j < v.outcome.next v.index := by
  constructor
  · rintro ⟨hs, hcalls, first, last, stop, hp, hq, hstop, hj, hle⟩
    refine ⟨hj, (Outcome.lt_next_iff hj).2 ⟨stop, ?_, hle⟩⟩
    rw [hv, resume_step, if_pos (by simp [hs, hcalls]),
      resumeLine?_eq_some_iff (Bool.and_eq_true_iff.1 hcalls).2]
    exact ⟨first, last, hp, hq, hstop⟩
  · rintro ⟨hj, hnext⟩
    obtain ⟨stop, hresume, hle⟩ := (Outcome.lt_next_iff hj).1 hnext
    rw [hv, resume_step] at hresume
    split_ifs at hresume with hcycle
    obtain ⟨hs, hcalls⟩ := Bool.and_eq_true_iff.1 hcycle
    obtain ⟨first, last, hp, hq, hstop⟩ :=
      (resumeLine?_eq_some_iff (Bool.and_eq_true_iff.1 hcalls).2).1 hresume
    exact ⟨hs, hcalls, first, last, stop, hp, hq, hstop, hj, hle⟩

/-- From a line on, every line is walked over unless the walk goes on behind it. -/
theorem exists_visit_or_passed (hj : j < p.lines.size) (hle : index ≤ j) :
    (∃ v ∈ visitsFrom t p s index, v.index = j) ∨
      ∃ v ∈ visitsFrom t p s index, v.index < j ∧ j < v.outcome.next v.index := by
  fun_induction visitsFrom t p s index with
  | case1 s index hlt line o ih =>
    obtain rfl | hlt := Nat.eq_or_lt_of_le hle
    · exact .inl ⟨_, List.mem_cons_self, rfl⟩
    · by_cases hnext : j < o.next index
      · exact .inr ⟨_, List.mem_cons_self, hlt, hnext⟩
      · obtain ⟨v, hv, hvj⟩ | ⟨v, hv, hvj⟩ := ih (not_lt.1 hnext)
        · exact .inl ⟨v, List.mem_cons_of_mem _ hv, hvj⟩
        · exact .inr ⟨v, List.mem_cons_of_mem _ hv, hvj⟩
  | case2 s index hnot => exact absurd (hle.trans_lt hj) hnot

/-- A visit is to no line that the walk has gone on behind. -/
theorem index_ne_of_passed {w : Visit α} (hv : v ∈ visits t p) (hw : w ∈ visits t p)
    (hlt : w.index < j) (hnext : j < w.outcome.next w.index) : v.index ≠ j := by
  obtain ⟨past, later, hvisits⟩ := List.append_of_mem hw
  have honward := pairwise_index_lt_visits (t := t) (p := p)
  have hgoesOn : (visits t p).Pairwise fun v w => v.outcome.next v.index ≤ w.index :=
    pairwise_next_le_visitsFrom
  rw [hvisits] at hv honward hgoesOn
  obtain hpast | hv := List.mem_append.1 hv
  · have := (List.pairwise_append.1 honward).2.2 v hpast w List.mem_cons_self
    omega
  obtain rfl | hlater := List.mem_cons.1 hv
  · exact hlt.ne
  · have := (List.pairwise_cons.1 (List.pairwise_append.1 hgoesOn).2.1).1 v hlater
    omega

theorem length_visitsFrom_le : (visitsFrom t p s index).length ≤ p.lines.size - index := by
  fun_induction visitsFrom t p s index with
  | case1 s index hlt line o ih =>
    have := Outcome.lt_next o index
    rw [List.length_cons]
    omega
  | case2 => exact Nat.zero_le _

/-- How a walk goes through the lines of its program. -/
structure Proceeds (t : Tuning α) (p : Program α) : Prop where
  /-- It goes on to later lines only, so that it visits none twice. -/
  onward : (visits t p).Pairwise fun v w => v.index < w.index
  /-- It comes to an end, after no more visits than there are lines. -/
  length_le : (visits t p).length ≤ p.lines.size
  /-- It visits every line but those that a roughing cycle skips. -/
  visited_iff : ∀ j < p.lines.size,
    (∃ v ∈ visits t p, v.index = j) ↔ ∀ v ∈ visits t p, ¬ v.Skips p j
  /-- Lines that are skipped leave no point on the trace. -/
  unseen : ∀ v ∈ visits t p, ∀ j, v.Skips p j →
    ∀ q ∈ (p.trace t).points.toList, q.line ≠ some j

theorem skips_iff_of_mem_visits (hv : v ∈ visits t p) :
    v.Skips p j ↔ v.index < j ∧ j < v.outcome.next v.index :=
  skips_iff (of_mem_visitsFrom hv).2.2

/-- **A contour that has been roughed is not cut again, and the walk comes to an end.**  Whatever a
program says and however the walk is tuned: the walk goes on to later lines only, so that it visits
each line at most once and in order.  It leaves out exactly the lines behind a roughing cycle up to
the one that its Q names, and they leave no point on the trace, whether or not P names a line too
and whatever the contour looks like. -/
theorem proceeds (t : Tuning α) (p : Program α) : Proceeds t p := by
  refine ⟨pairwise_index_lt_visits, length_visitsFrom_le, fun j hj => ⟨?_, fun h => ?_⟩, ?_⟩
  · rintro ⟨v, hv, hvj⟩ w hw hskips
    obtain ⟨hlt, hnext⟩ := (skips_iff_of_mem_visits hw).1 hskips
    exact index_ne_of_passed hv hw hlt hnext hvj
  · refine (exists_visit_or_passed hj (Nat.zero_le j)).resolve_right ?_
    rintro ⟨v, hv, hpassed⟩
    exact h v hv ((skips_iff_of_mem_visits hv).2 hpassed)
  · intro w hw j hskips q hq hline
    obtain ⟨hlt, hnext⟩ := (skips_iff_of_mem_visits hw).1 hskips
    -- the point is stamped like one that its line emits when it is visited
    obtain ⟨b, hb, place, rfl⟩ := Subdivision.exists_of_mem_subdivide hq
    obtain ⟨v, hv, hb⟩ := exists_visit_of_mem_points hb
    have hvj : some v.index = some j :=
      ((emits_of_mem_visitsFrom hv).line_eq b hb).symm.trans hline
    exact index_ne_of_passed hv hw hlt hnext (Option.some.inj hvj)

end Walk

/-- A contour is roughed with a P that no line declares, and again behind its end with a Q that
names a line before it. -/
def Source.roughedWithoutStart : Source :=
  ⟨#["N2 G0 X40 Z2 F0.2", "G71 P9 Q2", "N1 G0 X20", "G1 Z-10", "N2 X36", "N3 M8", "G71 P1 Q2",
    "M30"]⟩

/-- Its last declaration of label 2 is on line 4, so that lines 2 to 4 are skipped the first time
and none the second time. -/
example : (Program.read (α := Float) Source.roughedWithoutStart).toOption.map
    (fun p => (Walk.visits .coarse p).map Walk.Visit.index) = some [0, 1, 5, 6, 7] := by
  decide +kernel

end Lathe
