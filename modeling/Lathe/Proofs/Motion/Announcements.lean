import Lathe.Proofs.Motion.Continuity

/-!
# Announced cut parameters

A G71 line with U and without P announces how deep the next roughing cycle cuts and how far it
retracts.  The walk keeps what is announced in one place, which every line may read, fill or empty.
`Walk.heeds_of_visits` says what the place holds in terms of the lines alone: whatever has been
walked over, in whatever order, it is what the last announcement behind the last roughing cycle
says.  A roughing cycle takes it, and uses it up also where its labels lead to no contour.

* `Line.callsRoughing` : the line calls a roughing cycle.
* `Line.announced?` : the cut parameters that the line announces.
* `Program.announcedBy?` : the cut parameters that lines leave for the next roughing cycle.
* `Walk.Heeds` : how a visit of the walk treats what the visits before it have announced.
-/

namespace Lathe

variable {α : Type} [Scalar α]

/-! ### Lines -/

/-- The action leaves alone what is announced for the next roughing cycle. -/
def Action.spares : Action α → Bool
  | .rough => false
  | .announce _ => false
  | _ => true

namespace Line

variable {l : Line α} {retract : α} {cut : CutParameters α}

/-- The line calls a roughing cycle: G71 with P and Q. -/
def callsRoughing (l : Line α) : Bool :=
  l.hasCode 71 && l.hasLabels

/-- The cut parameters that a G71 line without P announces with U: the depth is that of U, and the
retraction that of R or else the given one. -/
def announced? (retract : α) (l : Line α) : Option (CutParameters α) :=
  if l.hasCode 71 && !l.has .p then
    (l.value? .u).map fun depth => ⟨Scalar.abs depth, ((l.value? .r).map Scalar.abs).getD retract⟩
  else none

theorem spares_plainAction : l.plainAction.spares = true := by
  unfold plainAction
  split_ifs <;> rfl

/-- Without G71 a line spares what is announced. -/
theorem spares_action (h : l.hasCode 71 = false) : l.action.spares = true := by
  have hbusy : l.busyAction = l.plainAction := if_neg (by simp [h])
  unfold action
  rw [hbusy]
  cases l.aux? with
  | none => exact spares_plainAction
  | some code =>
    dsimp only
    split_ifs
    · rfl
    · exact spares_plainAction

/-- With G71 a line is no mark. -/
theorem action_of_hasCode (h : l.hasCode 71 = true) : l.action = l.busyAction := by
  unfold action
  cases l.aux? with
  | none => rfl
  | some code => exact if_neg (by simp [h])

theorem action_of_callsRoughing (h : l.callsRoughing = true) : l.action = .rough := by
  obtain ⟨h₇₁, hlabels⟩ := Bool.and_eq_true_iff.1 h
  obtain ⟨hp, hq⟩ := Bool.and_eq_true_iff.1 hlabels
  rw [action_of_hasCode h₇₁, busyAction, if_pos h₇₁, if_pos hp, if_pos hq]

/-- A line that announces something has no P. -/
theorem callsRoughing_of_announced? (h : l.announced? retract = some cut) :
    l.callsRoughing = false := by
  unfold announced? at h
  split_ifs at h with hcode
  rw [Bool.and_eq_true, Bool.not_eq_true'] at hcode
  simp [callsRoughing, hasLabels, hcode.2]

theorem action_of_announced? (h : l.announced? retract = some cut) :
    ∃ depth, l.action = .announce depth ∧
      cut = ⟨Scalar.abs depth, ((l.value? .r).map Scalar.abs).getD retract⟩ := by
  unfold announced? at h
  split_ifs at h with hcode
  obtain ⟨depth, hu, rfl⟩ := Option.map_eq_some_iff.1 h
  rw [Bool.and_eq_true, Bool.not_eq_true'] at hcode
  obtain ⟨h₇₁, hp⟩ := hcode
  refine ⟨depth, ?_, rfl⟩
  rw [action_of_hasCode h₇₁, busyAction, if_pos h₇₁, if_neg (by simp [hp]), hu]

/-- A line that neither calls a roughing cycle nor announces anything spares what is announced. -/
theorem spares_of_announced? (hcalls : l.callsRoughing = false)
    (h : l.announced? retract = none) : l.action.spares = true := by
  cases h₇₁ : l.hasCode 71 with
  | false => exact spares_action h₇₁
  | true =>
    rw [action_of_hasCode h₇₁, busyAction, if_pos h₇₁]
    -- with P but without Q, and without P and U, G71 says nothing
    split_ifs with hp hq
    · simp [callsRoughing, hasLabels, h₇₁, hp, hq] at hcalls
    · exact spares_plainAction
    · have hu : l.value? .u = none := by simpa [announced?, h₇₁, hp] using h
      rw [hu]
      exact spares_plainAction

end Line

/-- The cut parameters that lines leave for the next roughing cycle: the last ones announced behind
the last roughing cycle. -/
def Program.announcedBy? (retract : α) (lines : List (Line α)) : Option (CutParameters α) :=
  (lines.reverse.takeWhile fun l => !l.callsRoughing).findSome? (Line.announced? retract)

theorem Program.announcedBy?_concat (retract : α) (lines : List (Line α)) (l : Line α) :
    announcedBy? retract (lines ++ [l]) =
      if l.callsRoughing then none
      else (l.announced? retract).or (announcedBy? retract lines) := by
  rw [announcedBy?, List.reverse_append, List.reverse_singleton, List.singleton_append]
  cases hcalls : l.callsRoughing with
  | true => rw [List.takeWhile_cons_of_neg (by simp [hcalls])]; rfl
  | false =>
    rw [List.takeWhile_cons_of_pos (by simp [hcalls]), List.findSome?_cons]
    cases l.announced? retract <;> rfl

namespace Walk

open Program (announcedBy?)

variable {t : Tuning α} {p : Program α} {s : State α} {l : Line α} {index : Nat} {v : Visit α}

/-! ### One line -/

theorem pending_move : (move t s l index).state.modal.pending = s.modal.pending := by
  unfold move
  dsimp only
  split_ifs <;> rfl

theorem pending_finish : (finish t p s l index).state.modal.pending = s.modal.pending := by
  unfold finish
  split <;> rfl

theorem pending_rough : (rough t p s l index).state.modal.pending = none := by
  unfold rough
  dsimp only
  split <;> rfl

theorem pending_announce (depth : α) : (announce t s l depth).state.modal.pending =
    some ⟨Scalar.abs depth, ((l.value? .r).map Scalar.abs).getD t.cycle.retract⟩ := by
  unfold announce
  cases l.value? .r <;> rfl

theorem pending_perform_of_spares (h : l.action.spares = true) :
    (perform t p s l index).state.modal.pending = s.modal.pending := by
  unfold perform
  cases ha : l.action with
  | rough => rw [ha] at h; cases h
  | announce depth => rw [ha] at h; cases h
  | move => exact pending_move
  | finish => exact pending_finish
  | mark code => rfl
  | nothing => rfl

/-- **What a line leaves announced.** -/
theorem pending_perform : (perform t p s l index).state.modal.pending =
    if l.callsRoughing then none else (l.announced? t.cycle.retract).or s.modal.pending := by
  cases hcalls : l.callsRoughing with
  | true =>
    rw [perform, Line.action_of_callsRoughing hcalls]
    exact pending_rough
  | false =>
    cases hcut : l.announced? t.cycle.retract with
    | some cut =>
      obtain ⟨depth, haction, rfl⟩ := Line.action_of_announced? hcut
      rw [perform, haction]
      exact pending_announce depth
    | none => exact pending_perform_of_spares (Line.spares_of_announced? hcalls hcut)

/-- The same of any line, once the tool has a place; before it, nothing is announced. -/
theorem pending_step : (step t p s l index).state.modal.pending =
    if s.started then
      if l.callsRoughing then none else (l.announced? t.cycle.retract).or s.modal.pending
    else s.modal.pending := by
  have hentering : (s.entering l).modal.pending = s.modal.pending := s.modal.withModesOf_pending l
  unfold step
  by_cases hempty : l.isEmpty = true
  -- without words there is no G71
  · rw [if_pos hempty]
    have hwords : l.words = [] := List.isEmpty_iff.1 hempty
    simp [Outcome.quiet, Line.callsRoughing, Line.announced?, Line.hasCode, Line.codes, hwords]
  · rw [if_neg hempty]
    dsimp only
    rw [entering_started]
    split_ifs with hs hcalls
    · rw [pending_perform, if_pos hcalls]
    · rw [pending_perform, if_neg hcalls, hentering]
    · unfold start
      dsimp only
      split_ifs <;> exact hentering

/-! ### Visits -/

/-- The lines of visits that are performed, which takes the tool to have a place. -/
def performed (vs : List (Visit α)) : List (Line α) :=
  (vs.filter (·.before.started)).map Visit.line

omit [Scalar α] in
theorem performed_concat (past : List (Visit α)) (v : Visit α) :
    performed (past ++ [v]) =
      if v.before.started then performed past ++ [v.line] else performed past := by
  rw [performed, List.filter_append, List.map_append]
  cases hs : v.before.started <;> simp [hs, performed]

/-- A visit heeds what the visits before it have announced. -/
structure Heeds (t : Tuning α) (p : Program α) (past : List (Visit α)) (v : Visit α) : Prop where
  /-- What the lines before have left is announced before the line. -/
  waiting : v.before.modal.pending = announcedBy? t.cycle.retract (performed past)
  /-- A roughing cycle cuts with it, or else with what is usual. -/
  cut : v.before.started = true → v.line.callsRoughing = true →
    (v.roughing t).cut = (announcedBy? t.cycle.retract (performed past)).getD
      ⟨t.cycle.depth, t.cycle.retract⟩
  /-- It emits what it is expanded to, if its labels lead to two points at least. -/
  points : v.before.started = true → v.line.callsRoughing = true → v.outcome.points =
    match contour? t p v.line with
    | some (a :: b :: rest) => ((v.roughing t).expand t.cycle (a :: b :: rest)
        ⟨v.before.block + 1, v.index, v.line.aux?⟩).points
    | _ => []
  /-- It uses up what is announced, wherever its labels lead. -/
  spent : v.before.started = true → v.line.callsRoughing = true →
    v.outcome.state.modal.pending = none
  /-- An announcement takes the place of those before it. -/
  announced : ∀ cut, v.before.started = true → v.line.announced? t.cycle.retract = some cut →
    v.outcome.state.modal.pending = some cut
  /-- No other line changes what is announced. -/
  kept : v.line.callsRoughing = false → v.line.announced? t.cycle.retract = none →
    v.outcome.state.modal.pending = v.before.modal.pending

/-- What is announced after one more line. -/
theorem announcedBy?_performed_concat {past : List (Visit α)}
    (hbefore : v.before.modal.pending = announcedBy? t.cycle.retract (performed past))
    (hout : v.outcome = step t p v.before v.line v.index) :
    v.outcome.state.modal.pending = announcedBy? t.cycle.retract (performed (past ++ [v])) := by
  rw [hout, pending_step, performed_concat, hbefore]
  split_ifs with hs hcalls
  · rw [Program.announcedBy?_concat, if_pos hcalls]
  · rw [Program.announcedBy?_concat, if_neg hcalls]
  · rfl

/-- A roughing cycle is expanded. -/
theorem points_of_callsRoughing (hs : s.started = true) (h : l.callsRoughing = true) :
    (step t p s l index).points = match contour? t p l with
      | some (a :: b :: rest) => ((roughing t (s.entering l).modal l).expand t.cycle
          (a :: b :: rest) ⟨s.block + 1, index, l.aux?⟩).points
      | _ => [] := by
  have haction := Line.action_of_callsRoughing h
  rw [step_of_started hs (by simp [haction]), perform, haction]
  dsimp only
  unfold rough
  cases contour? t p l with
  | none => rfl
  | some contour => rcases contour with _ | ⟨a, _ | ⟨b, rest⟩⟩ <;> rfl

/-- **Every roughing cycle cuts as announced.**  Whatever a program says and however the walk is
tuned, take any line that is walked over.  What is announced before it is what the last announcement
says that is performed behind the last roughing cycle.  If the line calls a roughing cycle once the
tool has a place, the cycle cuts with that or, if there is none, with what is usual, and nothing is
announced then, also if it emits nothing.  A line that neither calls a roughing cycle nor announces
anything changes nothing of this. -/
theorem heeds_of_visits {past later : List (Visit α)} (h : visits t p = past ++ v :: later) :
    Heeds t p past v := by
  have hout := outcome_of_visits h
  have hwaiting : v.before.modal.pending = announcedBy? t.cycle.retract (performed past) :=
    carried_visits (I := fun past s =>
        s.modal.pending = announcedBy? t.cycle.retract (performed past))
      rfl (fun past v hbefore hout => announcedBy?_performed_concat hbefore hout) h
  refine ⟨hwaiting, ?_, ?_, ?_, ?_, ?_⟩
  · intro hs hcalls
    rw [← hwaiting, Visit.roughing, Walk.roughing, Visit.inForce, Modal.withModesOf_pending]
  · intro hs hcalls
    rw [hout]
    exact points_of_callsRoughing hs hcalls
  · intro hs hcalls
    rw [hout, pending_step, if_pos hs, if_pos hcalls]
  · intro cut hs hcut
    have hcalls := Line.callsRoughing_of_announced? hcut
    rw [hout, pending_step, if_pos hs, if_neg (by simp [hcalls]), hcut]
    rfl
  · intro hcalls hcut
    rw [hout, pending_step, hcut, hcalls]
    exact ite_self _

end Walk

/-- Two announcements behind the start, and a finishing cycle and a mark before the roughing cycle
that takes the second, but whose Q leads nowhere. -/
def Source.announcedTwice : Source :=
  ⟨#["G71 U9 R9", "G0 X40 Z2 F0.2", "G71 U3 R1", "G71 U-2.5", "G70 P1 Q2", "M8", "G71 P1 Q7",
    "G71 P1 Q2", "N1 G0 X20", "G1 Z-10", "N2 X36"]⟩

theorem Walk.heeds_of_visits_announcedTwice :
    ∃ p : Program Float, Program.read Source.announcedTwice = .ok p ∧
      ∃ past v later, Walk.visits .coarse p = past ++ v :: later ∧ v.index = 6 ∧
        v.before.started = true ∧ v.line.callsRoughing = true ∧
        (v.roughing .coarse).cut = ⟨2.5, 0.5⟩ ∧ v.outcome.points = [] ∧
        Walk.Heeds .coarse p past v := by
  have hread : (Program.read (α := Float) Source.announcedTwice).toOption.map
      (fun p : Program Float => (Walk.visits .coarse p).any fun v =>
        decide (v.index = 6) && v.before.started && v.line.callsRoughing &&
          decide ((v.roughing .coarse).cut = ⟨2.5, 0.5⟩) && v.outcome.points.isEmpty) =
        some true := by
    decide +kernel
  obtain ⟨p, hp, hany⟩ := Source.exists_read_of_map_eq_some hread
  obtain ⟨v, hv, hcycle⟩ := List.any_eq_true.1 hany
  simp only [Bool.and_eq_true, decide_eq_true_eq, List.isEmpty_iff] at hcycle
  obtain ⟨⟨⟨⟨hindex, hs⟩, hcalls⟩, hcut⟩, hpoints⟩ := hcycle
  obtain ⟨past, later, hvisits⟩ := List.append_of_mem hv
  exact ⟨p, hp, past, v, later, hvisits, hindex, hs, hcalls, hcut, hpoints,
    heeds_of_visits hvisits⟩

end Lathe
