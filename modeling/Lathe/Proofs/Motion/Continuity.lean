import Lathe.Proofs.Motion.ArcPlaces
import Lathe.Proofs.Motion.Modes
import Lathe.Proofs.Motion.Order

/-!
# Motion without jumps

The walk through a program keeps the place of the tool and emits points, and it does both anew for
the start, for marks, for straight moves, for arcs and for the two cycles.  They never part: from
the start on the tool is where the last emitted point is (`Walk.continues_of_visits`).  So every
move and every cycle begins where the one before has ended, and a cycle that emits points brings the
tool back to where it was.

* `Point.lastPlace?` : the place of the last of some points.
* `Contour.Tracing.route` : the places that a move goes through, the first one included.
* `Walk.Continues` : how a visit of the walk goes on from the points before it.
-/

namespace Lathe

variable {α : Type}

/-- The place of the last of some points. -/
def Point.lastPlace? (points : List (Point α)) : Option (Position α) :=
  points.getLast?.map fun q => q.toPosition

namespace Point

theorem lastPlace?_append (a b : List (Point α)) :
    lastPlace? (a ++ b) = (lastPlace? b).or (lastPlace? a) := by
  rw [lastPlace?, List.getLast?_append, Option.map_or]
  rfl

end Point

variable [Scalar α]

/-! ### Moves -/

namespace Contour.Tracing

variable (s : ArcSettings α) (motion : Motion) (a b : Position α) (radius : α)

/-- The places that a move goes through: both ends, and for an arc the places between them. -/
def route : List (Position α) :=
  match motion.rotation? with
  | some rotation => Arc.polyline s a b radius rotation
  | none => [a, b]

theorem head?_route : (route s motion a b radius).head? = some a := by
  unfold route
  split
  · exact Arc.head?_polyline
  · rfl

theorem getLast?_route : (route s motion a b radius).getLast? = some b := by
  unfold route
  split
  · exact Arc.getLast?_polyline
  · rfl

/-- What a move emits is its route without the first place. -/
theorem pathTo_eq_tail : pathTo s motion a b radius = (route s motion a b radius).tail := by
  unfold pathTo route
  cases motion.rotation? with
  | some rotation => exact List.drop_one
  | none => rfl

theorem getLast?_pathTo : (pathTo s motion a b radius).getLast? = some b := by
  unfold pathTo
  split
  · next rotation _ =>
    obtain ⟨mid, hmid⟩ := Arc.exists_polyline_eq s a b radius rotation
    rw [hmid, List.drop_one, List.tail_cons, List.getLast?_concat]
  · rfl

end Contour.Tracing

/-! ### Cycles -/

/-- A roughing cycle that emits points ends where it starts. -/
theorem Roughing.lastPlace?_expand (c : Roughing α) (s : CycleSettings α)
    {contour : List (ContourPoint α)} (stamp : CycleLine) (h : contour ≠ []) :
    Point.lastPlace? (c.expand s contour stamp).points = some c.start := by
  cases contour with
  | nil => exact absurd rfl h
  | cons first rest => simp [expand, Point.lastPlace?, Point.make]

/-- So does a finishing cycle. -/
theorem Finishing.lastPlace?_expand (c : Finishing α) {contour : List (ContourPoint α)}
    (stamp : CycleLine) (h : contour ≠ []) :
    Point.lastPlace? (c.expand contour stamp).points = some c.start := by
  cases contour with
  | nil => exact absurd rfl h
  | cons first rest =>
    rw [expand, Point.lastPlace?, List.getLast?_concat]
    rfl

/-! ### Lines -/

/-- A line without words does nothing. -/
theorem Line.action_of_isEmpty {l : Line α} (h : l.isEmpty = true) : l.action = .nothing := by
  have hwords : l.words = [] := List.isEmpty_iff.1 h
  simp [action, busyAction, plainAction, aux?, isStill, motion?, hasAxis, hasLabels, hasCode, codes,
    has, value?, hwords]

namespace Walk

open Point (lastPlace?)

variable {t : Tuning α} {p : Program α} {s : State α} {l : Line α} {index : Nat} {v : Visit α}

/-- A line that does something is performed once the tool has a place. -/
theorem step_of_started (hs : s.started = true) (h : l.action ≠ .nothing) :
    step t p s l index = perform t p (s.entering l) l index := by
  have hempty : l.isEmpty ≠ true := fun hempty => h (Line.action_of_isEmpty hempty)
  rw [step, if_neg hempty]
  exact if_pos hs

theorem step_of_move (hs : s.started = true) (h : l.action = .move) :
    step t p s l index = move t (s.entering l) l index := by
  rw [step_of_started hs (by simp [h]), perform, h]

/-- Whatever a line does, the tool is then at the last point that it emits, or where it was. -/
theorem position_perform : (perform t p s l index).state.modal.position =
    (lastPlace? (perform t p s l index).points).getD s.modal.position := by
  unfold perform
  cases l.action with
  | mark code => rfl
  | announce depth => rfl
  | nothing => rfl
  | rough =>
    dsimp only
    unfold rough
    dsimp only
    split
    · rename_i a b rest _
      rw [Roughing.lastPlace?_expand _ _ _ (List.cons_ne_nil _ _)]
      rfl
    · rfl
  | finish =>
    dsimp only
    unfold finish
    split
    · rfl
    · rename_i contour _
      cases contour with
      | nil => rfl
      | cons first rest =>
        dsimp only
        rw [Finishing.lastPlace?_expand _ _ (List.cons_ne_nil _ _)]
        rfl
  | move =>
    dsimp only
    unfold move
    dsimp only
    split_ifs
    · rfl
    · rw [lastPlace?, List.getLast?_map, Contour.Tracing.getLast?_pathTo]
      rfl

/-- The same of any line; the start is a place and a point at once. -/
theorem position_step : (step t p s l index).state.modal.position =
    (lastPlace? (step t p s l index).points).getD s.modal.position := by
  unfold step
  split_ifs with hempty
  · rfl
  · dsimp only
    split_ifs
    · rw [position_perform, entering_position]
    · unfold start
      dsimp only
      split_ifs
      · rfl
      · exact entering_position s l

/-! ### Visits -/

/-- The points that visits emit. -/
def emitted (vs : List (Visit α)) : List (Point α) :=
  vs.flatMap fun v => v.outcome.points

omit [Scalar α] in
theorem emitted_concat (past : List (Visit α)) (v : Visit α) :
    emitted (past ++ [v]) = emitted past ++ v.outcome.points := by
  rw [emitted, List.flatMap_append, List.flatMap_singleton]
  rfl

/-- What is in force on the line of a visit. -/
def Visit.inForce (v : Visit α) : Modal α := v.before.modal.withModesOf v.line

/-- The places that the move of a visit goes through. -/
def Visit.route (t : Tuning α) (v : Visit α) : List (Position α) :=
  Contour.Tracing.route t.arc v.inForce.motion v.before.modal.position
    (v.before.modal.target v.line) ((v.line.value? .r).getD 0.0)

/-- The finishing cycle of a visit. -/
def Visit.finishing (v : Visit α) : Finishing α := ⟨v.inForce.position, v.inForce.feed⟩

/-- The roughing cycle of a visit. -/
def Visit.roughing (t : Tuning α) (v : Visit α) : Roughing α := Walk.roughing t v.inForce v.line

/-- A visit goes on where the visits before it have ended. -/
structure Continues (t : Tuning α) (past : List (Visit α)) (v : Visit α) : Prop where
  /-- If the tool has a place before the line, it is that of the last point emitted before. -/
  before : v.before.started = true → lastPlace? (emitted past) = some v.before.modal.position
  /-- If it has one after the line, it is that of the last point emitted so far. -/
  after : v.outcome.state.started = true →
    lastPlace? (emitted (past ++ [v])) = some v.outcome.state.modal.position
  /-- A move emits its route, which begins at the last point emitted before and ends where the tool
  is after it. -/
  move : v.before.started = true → v.line.action = .move → v.outcome.points ≠ [] →
    (v.route t).head? = lastPlace? (emitted past) ∧
      v.outcome.points.map (fun q => q.toPosition) = (v.route t).tail ∧
      (v.route t).getLast? = some v.outcome.state.modal.position
  /-- A roughing cycle is expanded from the last point emitted before. -/
  rough : v.before.started = true → v.line.action = .rough → v.outcome.points ≠ [] →
    lastPlace? (emitted past) = some (v.roughing t).start ∧
      ∃ contour stamp, v.outcome.points = ((v.roughing t).expand t.cycle contour stamp).points
  /-- So is a finishing cycle. -/
  finish : v.before.started = true → v.line.action = .finish → v.outcome.points ≠ [] →
    lastPlace? (emitted past) = some v.finishing.start ∧
      ∃ contour stamp, v.outcome.points = (v.finishing.expand contour stamp).points
  /-- A cycle that emits points ends at the last point emitted before, and the tool is there. -/
  returns : v.before.started = true → v.line.action = .rough ∨ v.line.action = .finish →
    v.outcome.points ≠ [] → lastPlace? v.outcome.points = lastPlace? (emitted past) ∧
      v.outcome.state.modal.position = v.before.modal.position

/-- Where the last point is after one more line. -/
theorem lastPlace?_emitted_concat {past : List (Visit α)}
    (hbefore : v.before.started = true → lastPlace? (emitted past) = some v.before.modal.position)
    (hout : v.outcome = step t p v.before v.line v.index) (h : v.outcome.state.started = true) :
    lastPlace? (emitted (past ++ [v])) = some v.outcome.state.modal.position := by
  have hposition : v.outcome.state.modal.position =
      (lastPlace? v.outcome.points).getD v.before.modal.position := by
    rw [hout]
    exact position_step
  rw [emitted_concat, Point.lastPlace?_append, hposition]
  cases hlast : lastPlace? v.outcome.points with
  | some place => rfl
  | none =>
    -- without points the line has not given the start, so there was a place before
    have hnil : v.outcome.points = [] := by simpa [lastPlace?] using hlast
    have hstarted : v.before.started = true := by
      by_contra hs
      rw [Bool.not_eq_true] at hs
      have hemits : Emits v.before v.line v.index v.outcome := by
        rw [hout]
        exact step_emits
      obtain ⟨hnot, -⟩ | ⟨-, q, hq, -⟩ := hemits.starts hs
      · rw [hnot] at h
        cases h
      · rw [hnil] at hq
        cases hq
    exact hbefore hstarted

/-- What a move emits. -/
theorem map_position_of_move (hout : v.outcome = step t p v.before v.line v.index)
    (hs : v.before.started = true) (ha : v.line.action = .move) (hne : v.outcome.points ≠ []) :
    v.outcome.points.map (fun q => q.toPosition) = (v.route t).tail ∧
      v.outcome.state.modal.position = v.before.modal.target v.line := by
  have hmove : v.outcome = Walk.move t (v.before.entering v.line) v.line v.index :=
    hout.trans (step_of_move hs ha)
  unfold Walk.move at hmove
  dsimp only at hmove
  rw [entering_position, target_entering] at hmove
  split_ifs at hmove with hnear
  · rw [hmove] at hne
    exact absurd rfl hne
  · rw [hmove]
    refine ⟨?_, rfl⟩
    rw [List.map_map, Contour.Tracing.pathTo_eq_tail]
    exact List.map_id _

/-- A roughing cycle emits nothing or what it is expanded to. -/
theorem points_of_rough (hout : v.outcome = step t p v.before v.line v.index)
    (hs : v.before.started = true) (ha : v.line.action = .rough) :
    v.outcome.state.modal.position = v.before.modal.position ∧ (v.outcome.points = [] ∨
      ∃ contour stamp, contour ≠ [] ∧
        v.outcome.points = ((v.roughing t).expand t.cycle contour stamp).points) := by
  have hrough : v.outcome = Walk.rough t p (v.before.entering v.line) v.line v.index := by
    rw [hout, step_of_started hs (by simp [ha]), perform, ha]
  rw [hrough]
  unfold Walk.rough
  dsimp only
  split
  · exact ⟨entering_position .., .inr ⟨_, _, List.cons_ne_nil _ _, rfl⟩⟩
  · exact ⟨entering_position .., .inl rfl⟩

/-- So does a finishing cycle. -/
theorem points_of_finish (hout : v.outcome = step t p v.before v.line v.index)
    (hs : v.before.started = true) (ha : v.line.action = .finish) :
    v.outcome.state.modal.position = v.before.modal.position ∧ (v.outcome.points = [] ∨
      ∃ contour stamp, contour ≠ [] ∧
        v.outcome.points = (v.finishing.expand contour stamp).points) := by
  have hfinish : v.outcome = Walk.finish t p (v.before.entering v.line) v.line v.index := by
    rw [hout, step_of_started hs (by simp [ha]), perform, ha]
  rw [hfinish]
  unfold Walk.finish
  split
  · exact ⟨entering_position .., .inl rfl⟩
  · rename_i contour _
    refine ⟨entering_position .., ?_⟩
    cases contour with
    | nil => exact .inl rfl
    | cons first rest => exact .inr ⟨first :: rest, _, List.cons_ne_nil _ _, rfl⟩

/-- A cycle that emits points brings the tool back. -/
theorem lastPlace?_of_cycle (hout : v.outcome = step t p v.before v.line v.index)
    (hs : v.before.started = true) (ha : v.line.action = .rough ∨ v.line.action = .finish)
    (hne : v.outcome.points ≠ []) :
    lastPlace? v.outcome.points = some v.before.modal.position ∧
      v.outcome.state.modal.position = v.before.modal.position := by
  obtain ha | ha := ha
  · obtain ⟨hposition, hpoints⟩ := points_of_rough hout hs ha
    obtain ⟨contour, stamp, hcontour, hpoints⟩ := hpoints.resolve_left hne
    rw [hpoints, Roughing.lastPlace?_expand _ _ _ hcontour]
    exact ⟨congrArg some (entering_position ..), hposition⟩
  · obtain ⟨hposition, hpoints⟩ := points_of_finish hout hs ha
    obtain ⟨contour, stamp, hcontour, hpoints⟩ := hpoints.resolve_left hne
    rw [hpoints, Finishing.lastPlace?_expand _ _ hcontour]
    exact ⟨congrArg some (entering_position ..), hposition⟩

/-- **The tool never jumps.**  Whatever a program says and however the walk is tuned, take any line
that is walked over.  If the tool has a place before the line, this is the place of the last point
emitted before, and after the line it is the place of the last point emitted so far.  So a move, be
it straight or along an arc, begins where the points before have ended; a cycle starts there; and a
cycle that emits points ends there and leaves the tool there. -/
theorem continues_of_visits {past later : List (Visit α)} (h : visits t p = past ++ v :: later) :
    Continues t past v := by
  have hout := outcome_of_visits h
  have hbefore : v.before.started = true →
      lastPlace? (emitted past) = some v.before.modal.position :=
    carried_visits (I := fun past s => s.started = true →
        lastPlace? (emitted past) = some s.modal.position)
      (fun hs => absurd hs Bool.false_ne_true)
      (fun past v hbefore hout => lastPlace?_emitted_concat hbefore hout) h
  have hstart : v.inForce.position = v.before.modal.position :=
    v.before.modal.withModesOf_position v.line
  refine ⟨hbefore, lastPlace?_emitted_concat hbefore hout, ?_, ?_, ?_, ?_⟩
  · intro hs ha hne
    obtain ⟨hpoints, hposition⟩ := map_position_of_move hout hs ha hne
    rw [hbefore hs, hposition]
    exact ⟨Contour.Tracing.head?_route .., hpoints, Contour.Tracing.getLast?_route ..⟩
  · intro hs ha hne
    obtain ⟨contour, stamp, -, hpoints⟩ := (points_of_rough hout hs ha).2.resolve_left hne
    exact ⟨(hbefore hs).trans (congrArg some hstart.symm), contour, stamp, hpoints⟩
  · intro hs ha hne
    obtain ⟨contour, stamp, -, hpoints⟩ := (points_of_finish hout hs ha).2.resolve_left hne
    exact ⟨(hbefore hs).trans (congrArg some hstart.symm), contour, stamp, hpoints⟩
  · intro hs ha hne
    rw [hbefore hs]
    exact lastPlace?_of_cycle hout hs ha hne

/-- The second finishing cycle of a program, which starts where the contour has been cut to. -/
theorem continues_of_visits_twoFinishes :
    ∃ p : Program Float, Program.read Source.twoFinishes = .ok p ∧
      ∃ past v later, visits .coarse p = past ++ v :: later ∧ v.before.started = true ∧
        v.line.action = .finish ∧ v.before.modal.position = ⟨26.0, -10.0⟩ ∧
        v.outcome.points.length = 4 ∧ Continues .coarse past v := by
  have hread : (Program.read (α := Float) Source.twoFinishes).toOption.map (fun p : Program Float =>
      (visits .coarse p).any fun v => v.before.started && decide (v.line.action = .finish) &&
        decide (v.before.modal.position = ⟨26.0, -10.0⟩) &&
        decide (v.outcome.points.length = 4)) = some true := by
    decide +kernel
  obtain ⟨p, hp, hany⟩ := Source.exists_read_of_map_eq_some hread
  obtain ⟨v, hv, hcycle⟩ := List.any_eq_true.1 hany
  simp only [Bool.and_eq_true, decide_eq_true_eq] at hcycle
  obtain ⟨past, later, hvisits⟩ := List.append_of_mem hv
  exact ⟨p, hp, past, v, later, hvisits, hcycle.1.1.1, hcycle.1.1.2, hcycle.1.2, hcycle.2,
    continues_of_visits hvisits⟩

end Walk

end Lathe
