import Lathe.Proofs.Motion.Emission
import Mathlib.Data.List.Nodup

/-!
# The visits of a walk

The walk visits lines in order and none twice, also where a roughing cycle sends it on behind its
contour.  `Walk.pairwise_visitsFrom` carries whatever a single line keeps over the whole walk.
-/

namespace Lathe

namespace Walk

variable {α : Type} [Scalar α] {t : Tuning α} {p : Program α} {s : State α} {index : Nat}
  {v w : Visit α}

theorem visitsFrom_of_lt (h : index < p.lines.size) :
    visitsFrom t p s index =
      ⟨index, p.lines[index], s, step t p s p.lines[index] index⟩ ::
        visitsFrom t p (step t p s p.lines[index] index).state
          ((step t p s p.lines[index] index).next index) := by
  rw [visitsFrom, dif_pos h]

theorem visitsFrom_of_le (h : p.lines.size ≤ index) : visitsFrom t p s index = [] := by
  rw [visitsFrom, dif_neg (by omega)]

/-- A visit is to a line of the program and leads to what that line does. -/
theorem of_mem_visitsFrom (h : v ∈ visitsFrom t p s index) :
    index ≤ v.index ∧ p.lines[v.index]? = some v.line ∧
      v.outcome = step t p v.before v.line v.index := by
  fun_induction visitsFrom t p s index with
  | case1 s index hlt line o ih =>
    obtain rfl | h := List.mem_cons.1 h
    · exact ⟨le_rfl, Array.getElem?_eq_getElem hlt, rfl⟩
    · obtain ⟨hle, hline, hout⟩ := ih h
      have := Outcome.lt_next o index
      exact ⟨by omega, hline, hout⟩
  | case2 => cases h

/-- What a visit emits. -/
theorem emits_of_mem_visitsFrom (h : v ∈ visitsFrom t p s index) :
    Emits v.before v.line v.index v.outcome := by
  rw [(of_mem_visitsFrom h).2.2]
  exact step_emits

/-- **The walk goes on behind the line that a visit names.** -/
theorem pairwise_next_le_visitsFrom :
    (visitsFrom t p s index).Pairwise fun v w => v.outcome.next v.index ≤ w.index := by
  fun_induction visitsFrom t p s index with
  | case1 s index hlt line o ih =>
    exact List.pairwise_cons.2 ⟨fun w hw => (of_mem_visitsFrom hw).1, ih⟩
  | case2 => exact .nil

/-- **What every line keeps, the walk keeps**, from the state it starts in to every visit and from
one visit to every later one. -/
theorem pairwise_visitsFrom {R : State α → State α → Prop} (hrefl : ∀ s, R s s)
    (htrans : ∀ a b c, R a b → R b c → R a c)
    (hstep : ∀ s l index, R s (step t p s l index).state) :
    (∀ v ∈ visitsFrom t p s index, R s v.before) ∧
      (visitsFrom t p s index).Pairwise fun v w => R v.outcome.state w.before := by
  fun_induction visitsFrom t p s index with
  | case1 s index hlt line o ih =>
    obtain ⟨hfrom, hpair⟩ := ih
    refine ⟨fun v hv => ?_, List.pairwise_cons.2 ⟨hfrom, hpair⟩⟩
    obtain rfl | hv := List.mem_cons.1 hv
    · exact hrefl s
    · exact htrans s o.state v.before (hstep s line index) (hfrom v hv)
  | case2 => exact ⟨by simp, .nil⟩

/-- **What every line carries on, the walk carries on.**  A relation between the visits made so far
and the state they have led to holds before every visit, if it holds at the start and every line
carries it on. -/
theorem carried_visitsFrom {I : List (Visit α) → State α → Prop}
    (hstep : ∀ past v, I past v.before → v.outcome = step t p v.before v.line v.index →
      I (past ++ [v]) v.outcome.state)
    {post : List (Visit α)} : ∀ done pre, I done s →
      visitsFrom t p s index = pre ++ v :: post → I (done ++ pre) v.before := by
  fun_induction visitsFrom t p s index with
  | case1 s index hlt line o ih =>
    intro done pre hdone h
    cases pre with
    | nil =>
      obtain ⟨rfl, -⟩ := List.cons.inj h
      rwa [List.append_nil]
    | cons w pre =>
      obtain ⟨rfl, hrest⟩ := List.cons.inj h
      rw [List.append_cons]
      exact ih _ pre (hstep done _ hdone rfl) hrest
  | case2 =>
    intro done pre _ h
    simp at h

/-- What holds at the start and is carried on by every line holds before every visit of a walk. -/
theorem carried_visits {I : List (Visit α) → State α → Prop} (hinit : I [] .initial)
    (hstep : ∀ past v, I past v.before → v.outcome = step t p v.before v.line v.index →
      I (past ++ [v]) v.outcome.state)
    {pre post : List (Visit α)} (h : visits t p = pre ++ v :: post) : I pre v.before :=
  carried_visitsFrom hstep [] pre hinit h

theorem outcome_of_visits {pre post : List (Visit α)} (h : visits t p = pre ++ v :: post) :
    v.outcome = step t p v.before v.line v.index := by
  have hv : v ∈ visits t p := by
    rw [h]
    exact List.mem_append_cons_self
  exact (of_mem_visitsFrom hv).2.2

/-- The block number and the place of the tool last: the one never goes down, the other is never
lost. -/
structure State.Leads (a b : State α) : Prop where
  /-- The block number does not go down. -/
  block_le : a.block ≤ b.block
  /-- The tool keeps having a place. -/
  started : a.started = true → b.started = true

omit [Scalar α] in
theorem State.Leads.refl (s : State α) : s.Leads s := ⟨le_rfl, id⟩

omit [Scalar α] in
theorem State.Leads.trans {a b c : State α} (h : a.Leads b) (h' : b.Leads c) : a.Leads c :=
  ⟨h.block_le.trans h'.block_le, fun ha => h'.started (h.started ha)⟩

theorem leads_step (s : State α) (l : Line α) (index : Nat) : s.Leads (step t p s l index).state :=
  ⟨step_emits.block_le, fun hs => (step_emits.started hs).1⟩

theorem leads_of_mem_visitsFrom (h : v ∈ visitsFrom t p s index) : s.Leads v.before :=
  (pairwise_visitsFrom State.Leads.refl (fun _ _ _ => .trans) leads_step).1 v h

theorem pairwise_leads_visitsFrom :
    (visitsFrom t p s index).Pairwise fun v w => v.outcome.state.Leads w.before :=
  (pairwise_visitsFrom State.Leads.refl (fun _ _ _ => .trans) leads_step).2

/-- **No line is visited twice**, and later visits are to later lines. -/
theorem pairwise_index_lt_visits : (visits t p).Pairwise fun v w => v.index < w.index :=
  pairwise_next_le_visitsFrom.imp fun {v w} h => by
    have := Outcome.lt_next v.outcome v.index
    omega

/-- A line has one visit at most. -/
theorem eq_of_index_eq (hv : v ∈ visits t p) (hw : w ∈ visits t p) (h : v.index = w.index) :
    v = w := by
  have hnodup : ((visits t p).map Visit.index).Nodup :=
    List.pairwise_map.2 (pairwise_index_lt_visits.imp Nat.ne_of_lt)
  exact List.inj_on_of_nodup_map hnodup hv hw h

end Walk

end Lathe
