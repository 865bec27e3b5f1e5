import Lathe.Proofs.Motion.Continuity
import Mathlib.Data.List.Induction

/-!
# Looking back over a program

The walk carries a state from line to line.  In a program that calls no cycle this state can be
read off the lines themselves, looking back from any of them: each mode is that of the last line
that sets it, and each coordinate is the last word for it, up to what a move that leads nowhere may
have left out (`Walk.looksBack_of_plain`).  Differences of this kind do not add up, because a move
that is left out does not change the place that the next one is compared with.

* `Line.isPlain` : the line calls no cycle.
* `Program.lastOf?` : what the last line says that says anything.
* `Walk.State.onward` : the state after a plain line, a function of the state before and the line.
* `Walk.State.Recalls` : the state is what lines say.
* `Walk.Visit.LooksBack` : so are the points of a visit.
-/

namespace Lathe

variable {α : Type} {β : Type}

/-- What the last of some lines says about something, if one of them says anything. -/
def Program.lastOf? (f : Line α → Option β) (lines : List (Line α)) : Option β :=
  (lines.filterMap f).getLast?

theorem Program.lastOf?_concat (f : Line α → Option β) (lines : List (Line α)) (l : Line α) :
    lastOf? f (lines ++ [l]) = (f l).or (lastOf? f lines) := by
  rw [lastOf?, List.filterMap_append, List.getLast?_append]
  cases h : f l <;> simp [h, lastOf?]

theorem Program.exists_of_lastOf? {f : Line α → Option β} {lines : List (Line α)} {b : β}
    (h : lastOf? f lines = some b) : ∃ l ∈ lines, f l = some b :=
  List.mem_filterMap.1 (List.mem_of_getLast? h)

theorem Line.value?_eq_none_of_has {l : Line α} {a : Address} (h : l.has a = false) :
    l.value? a = none := by
  rw [value?, Option.map_eq_none_iff, List.find?_eq_none]
  exact List.any_eq_false.1 h

variable [Scalar α]

/-- The line calls no cycle. -/
def Line.isPlain (l : Line α) : Bool :=
  !l.hasCode 70 && !l.hasCode 71

/-- A coordinate stands for a value: it is that value, or a move over the difference between them
counts as no move. -/
def Position.StandsFor (coordinate value : α) : Prop :=
  coordinate = value ∨ Scalar.abs (value - coordinate) ≤ Position.tolerance

namespace Position.StandsFor

variable {coordinate value : α} {word : Option α}

/-- A coordinate that moves takes the word over, if there is one. -/
theorem moved (h : StandsFor coordinate value) (word : Option α) :
    StandsFor (word.getD coordinate) (word.getD value) := by
  cases word with
  | none => exact h
  | some _ => exact .inl rfl

/-- A coordinate that stays differs little from the word. -/
theorem kept (h : StandsFor coordinate value)
    (hnear : Scalar.abs (word.getD coordinate - coordinate) ≤ tolerance) :
    StandsFor coordinate (word.getD value) := by
  cases word with
  | none => exact h
  | some _ => exact .inr hnear

end Position.StandsFor

/-- A point has a feed: the value, or zero where the value is neither above nor below it. -/
def Point.HasFeed (q : Point α) (feed : α) : Prop :=
  q.feed = feed ∨ ¬ 0.0 < feed ∧ ¬ feed < 0.0 ∧ q.feed = 0.0

omit [Scalar α] in
/-- A line without an axis word leads to where the tool is. -/
theorem Modal.target_of_not_hasAxis {m : Modal α} {l : Line α} (h : l.hasAxis = false) :
    m.target l = m.position := by
  obtain ⟨hx, hz⟩ := Bool.or_eq_false_iff.1 h
  rw [target, Line.value?_eq_none_of_has hx, Line.value?_eq_none_of_has hz]
  rfl

namespace Walk

open Point (lastPlace?)
open Program (lastOf?)

variable {t : Tuning α} {p : Program α} {s : State α} {l : Line α} {lines : List (Line α)}
  {i index : Nat} {v : Visit α}

/-! ### One line -/

/-- Where the tool is after a line that calls no cycle: a move that leads nowhere is left out. -/
def State.placeAfter (s : State α) (l : Line α) : Position α :=
  let target := s.modal.target l
  if s.started && s.modal.position.isNear target then s.modal.position else target

/-- The state after a line that calls no cycle. -/
def State.onward (s : State α) (l : Line α) : State α :=
  if l.isEmpty then s
  else
    ⟨{ s.modal.withModesOf l with position := s.placeAfter l }, s.block + 1,
      s.started || l.hasAxis⟩

theorem placeAfter_of_not_hasAxis (h : l.hasAxis = false) :
    s.placeAfter l = s.modal.position := by
  rw [State.placeAfter, Modal.target_of_not_hasAxis h]
  exact ite_self _

theorem entering_eq (s : State α) (l : Line α) :
    s.entering l =
      ⟨{ s.modal.withModesOf l with position := s.modal.position }, s.block + 1, s.started⟩ := by
  rw [State.entering, Modal.withModesOf_eq]

theorem onward_of_not_isEmpty (hempty : l.isEmpty = false) :
    s.onward l = ⟨{ s.modal.withModesOf l with position := s.placeAfter l }, s.block + 1,
      s.started || l.hasAxis⟩ :=
  if_neg (by simp [hempty])

/-- A line that leaves the tool where it is only enters. -/
theorem entering_eq_onward (hempty : l.isEmpty = false)
    (hplace : s.placeAfter l = s.modal.position) (hstarted : (s.started || l.hasAxis) = s.started) :
    s.entering l = s.onward l := by
  rw [onward_of_not_isEmpty hempty, hplace, hstarted]
  exact entering_eq s l

/-- Before the tool has a place, a line leads onward. -/
theorem onward_of_unplaced (hempty : l.isEmpty = false) (hs : s.started = false) :
    (step t p s l index).state = s.onward l ∧ (step t p s l index).resume = none := by
  have hstep : step t p s l index = start (s.entering l) l index := by
    rw [step, if_neg (by simp [hempty])]
    exact if_neg (by simp [hs])
  rw [hstep, start]
  cases haxis : l.hasAxis with
  | true =>
    refine ⟨?_, rfl⟩
    rw [target_entering, entering_eq, onward_of_not_isEmpty hempty, State.placeAfter, hs, haxis]
    rfl
  | false =>
    exact ⟨entering_eq_onward hempty (placeAfter_of_not_hasAxis haxis) (by simp [haxis]), rfl⟩

/-- Once the tool has a place, a line that calls no cycle leads onward. -/
theorem onward_of_placed (hplain : l.isPlain = true) (hempty : l.isEmpty = false)
    (hs : s.started = true) :
    (step t p s l index).state = s.onward l ∧ (step t p s l index).resume = none := by
  rw [Line.isPlain, Bool.and_eq_true, Bool.not_eq_true', Bool.not_eq_true'] at hplain
  rw [step_of_plain hplain.1 hplain.2 hempty hs]
  have hstarted : (s.started || l.hasAxis) = s.started := by simp [hs]
  cases hstill : l.isStill with
  | true =>
    have haxis : l.hasAxis = false := by
      rw [Line.isStill, Bool.and_eq_true, Bool.not_eq_true'] at hstill
      exact hstill.2
    have hstay := entering_eq_onward hempty (placeAfter_of_not_hasAxis haxis) hstarted
    rw [if_pos rfl]
    cases l.aux? with
    | none => exact ⟨hstay, rfl⟩
    | some code => exact ⟨hstay, rfl⟩
  | false =>
    rw [if_neg Bool.false_ne_true, move, target_entering, entering_position]
    dsimp only
    split_ifs with hnear
    · have hplace : s.placeAfter l = s.modal.position := by simp [State.placeAfter, hs, hnear]
      exact ⟨entering_eq_onward hempty hplace hstarted, rfl⟩
    · have hplace : s.placeAfter l = s.modal.target l := by simp [State.placeAfter, hnear]
      rw [onward_of_not_isEmpty hempty, hplace, hstarted, entering_eq]
      exact ⟨rfl, rfl⟩

/-- **A line that calls no cycle leads onward**, and to the next line. -/
theorem onward_of_plain (hplain : l.isPlain = true) :
    (step t p s l index).state = s.onward l ∧ (step t p s l index).resume = none := by
  cases hempty : l.isEmpty with
  | true => simp [step, State.onward, hempty, Outcome.quiet]
  | false =>
    cases hs : s.started with
    | true => exact onward_of_placed hplain hempty hs
    | false => exact onward_of_unplaced hempty hs

@[simp] theorem onward_motion : (s.onward l).modal.motion = l.motion?.getD s.modal.motion := by
  obtain ⟨_ | ⟨w, ws⟩⟩ := l
  · rfl
  · exact Modal.withModesOf_motion ..

@[simp] theorem onward_feed : (s.onward l).modal.feed = l.feed?.getD s.modal.feed := by
  obtain ⟨_ | ⟨w, ws⟩⟩ := l
  · rfl
  · exact Modal.withModesOf_feed ..

@[simp] theorem onward_position : (s.onward l).modal.position = s.placeAfter l := by
  obtain ⟨_ | ⟨w, ws⟩⟩ := l
  · exact (placeAfter_of_not_hasAxis rfl).symm
  · rfl

@[simp] theorem onward_pending : (s.onward l).modal.pending = s.modal.pending := by
  obtain ⟨_ | ⟨w, ws⟩⟩ := l
  · rfl
  · exact Modal.withModesOf_pending ..

@[simp] theorem onward_block : (s.onward l).block = s.block + if l.isEmpty then 0 else 1 := by
  obtain ⟨_ | ⟨w, ws⟩⟩ := l <;> rfl

@[simp] theorem onward_started : (s.onward l).started = (s.started || l.hasAxis) := by
  obtain ⟨_ | ⟨w, ws⟩⟩ := l
  · exact (Bool.or_false _).symm
  · rfl

/-! ### Many lines -/

/-- A state is what lines say, from the first to the last of them. -/
structure State.Recalls (s : State α) (lines : List (Line α)) : Prop where
  /-- The motion is that of the last line that selects one. -/
  motion : s.modal.motion = (lastOf? (·.motion?) lines).getD .rapid
  /-- The feed is the last one that is not below zero. -/
  feed : s.modal.feed = (lastOf? (·.feed?) lines).getD 0.0
  /-- The diameter stands for the last X word. -/
  x : Position.StandsFor s.modal.position.x ((lastOf? (·.value? .x) lines).getD 0.0)
  /-- The place along the axis stands for the last Z word. -/
  z : Position.StandsFor s.modal.position.z ((lastOf? (·.value? .z) lines).getD 0.0)
  /-- No cut parameters are announced. -/
  pending : s.modal.pending = none
  /-- The blocks are counted. -/
  block : s.block = lines.countP fun l => !l.isEmpty
  /-- The tool has a place from the first axis word on. -/
  started : s.started = lines.any Line.hasAxis

theorem State.Recalls.nil : (State.initial : State α).Recalls [] :=
  ⟨rfl, rfl, .inl rfl, .inl rfl, rfl, rfl, rfl⟩

/-- The coordinates after one line more stand for its words, or for those before. -/
theorem standsFor_placeAfter {x z : α} (hx : Position.StandsFor s.modal.position.x x)
    (hz : Position.StandsFor s.modal.position.z z) :
    Position.StandsFor (s.placeAfter l).x ((l.value? .x).getD x) ∧
      Position.StandsFor (s.placeAfter l).z ((l.value? .z).getD z) := by
  unfold State.placeAfter
  dsimp only
  split_ifs with h
  -- the tool stays: whatever words there are, they are near
  · rw [Bool.and_eq_true, Position.isNear, Bool.and_eq_true, decide_eq_true_eq,
      decide_eq_true_eq] at h
    exact ⟨hx.kept h.2.1, hz.kept h.2.2⟩
  · exact ⟨hx.moved _, hz.moved _⟩

/-- A line more is a line more to look back on. -/
theorem State.Recalls.onward (h : s.Recalls lines) (l : Line α) :
    (s.onward l).Recalls (lines ++ [l]) := by
  obtain ⟨hx, hz⟩ := standsFor_placeAfter (l := l) h.x h.z
  constructor
  · rw [onward_motion, h.motion, Program.lastOf?_concat, Option.getD_or]
  · rw [onward_feed, h.feed, Program.lastOf?_concat, Option.getD_or]
  · rwa [onward_position, Program.lastOf?_concat, Option.getD_or]
  · rwa [onward_position, Program.lastOf?_concat, Option.getD_or]
  · rw [onward_pending, h.pending]
  · rw [onward_block, h.block, List.countP_append]
    cases hempty : l.isEmpty <;> simp [hempty]
  · rw [onward_started, h.started, List.any_append, List.any_cons, List.any_nil, Bool.or_false]

/-- **The state after lines is what they say.** -/
theorem recalls_foldl (lines : List (Line α)) :
    (lines.foldl State.onward .initial).Recalls lines := by
  induction lines using List.reverseRecOn with
  | nil => exact .nil
  | append_singleton lines l ih =>
    rw [List.foldl_concat]
    exact ih.onward l

/-! ### Visits -/

theorem next_of_plain (hplain : l.isPlain = true) :
    (step t p s l index).next index = index + 1 := by
  rw [Outcome.next, (onward_of_plain hplain).2]
  exact congrArg (· + 1) (Nat.max_self index)

/-- **A plain program is walked over line by line.** -/
theorem exists_visitFrom_of_plain (hplain : ∀ l ∈ p.lines.toList, l.isPlain = true)
    (hi : i < p.lines.size) (hle : index ≤ i) :
    ∃ v ∈ visitsFrom t p s index, v.index = i ∧
      v.before = ((p.lines.toList.take i).drop index).foldl State.onward s := by
  -- the lines from `index` to `i` are still to come; each leads to the next
  fun_induction visitsFrom t p s index with
  | case1 s index hlt line o ih =>
    have hline : line.isPlain = true := hplain line (Array.getElem_mem_toList hlt)
    obtain rfl | hne := Nat.eq_or_lt_of_le hle
    · refine ⟨_, List.mem_cons_self, rfl, ?_⟩
      rw [List.drop_eq_nil_of_le (List.length_take_le ..)]
      rfl
    · have hnext : o.next index = index + 1 := next_of_plain hline
      rw [hnext] at ih
      obtain ⟨v, hv, hindex, hbefore⟩ := ih hne
      refine ⟨v, List.mem_cons_of_mem _ (hnext ▸ hv), hindex, hbefore.trans ?_⟩
      have hlen : index < (p.lines.toList.take i).length := by
        rw [List.length_take, Array.length_toList]
        omega
      rw [List.drop_eq_getElem_cons hlen, List.foldl_cons, List.getElem_take,
        Array.getElem_toList, (onward_of_plain hline).1]
  | case2 s index hge => omega

/-- What a visit leads to is what lines say, the last of which is its own. -/
structure Visit.LooksBack (v : Visit α) (lines : List (Line α)) : Prop where
  /-- The state after the line is a function of the lines. -/
  determined : v.outcome.state = lines.foldl State.onward .initial
  /-- It is what the lines say. -/
  state : v.outcome.state.Recalls lines
  /-- The points of a move are of the last motion. -/
  kind : v.before.started = true → v.line.action = .move →
    ∀ q ∈ v.outcome.points, q.kind = ((lastOf? (·.motion?) lines).getD .rapid).kind
  /-- They have the last feed. -/
  feed : v.before.started = true → v.line.action = .move →
    ∀ q ∈ v.outcome.points, q.HasFeed ((lastOf? (·.feed?) lines).getD 0.0)
  /-- They have the first M code of the line. -/
  aux : v.before.started = true → v.line.action = .move →
    ∀ q ∈ v.outcome.points, q.aux = v.line.aux?
  /-- The tool is at the last point. -/
  last : v.outcome.points ≠ [] →
    lastPlace? v.outcome.points = some v.outcome.state.modal.position

omit [Scalar α] in
theorem lastPlace?_eq_some_getD {points : List (Point α)} (h : points ≠ []) (place : Position α) :
    lastPlace? points = some ((lastPlace? points).getD place) := by
  rw [lastPlace?, List.getLast?_eq_some_getLast h]
  rfl

/-- The feed that lines leave is not below zero, so a point that is given it has it. -/
theorem hasFeed_make (lines : List (Line α)) (place : Position α) (kind : Kind) (block : Nat)
    (line : Option Nat) (aux : Option AuxCode) :
    (Point.make place kind block ((lastOf? (·.feed?) lines).getD 0.0) line aux).HasFeed
      ((lastOf? (·.feed?) lines).getD 0.0) := by
  unfold Point.HasFeed Point.make Scalar.max
  dsimp only
  cases hlast : lastOf? (·.feed?) lines with
  | none => exact .inl (by split_ifs <;> rfl)
  | some feed =>
    obtain ⟨l, -, hl⟩ := Program.exists_of_lastOf? hlast
    have hfeed : ¬ feed < 0.0 := by
      simpa using (Option.filter_eq_some_iff.1 hl).2
    rw [Option.getD_some]
    split_ifs with hpos
    · exact .inl rfl
    · exact .inr ⟨hpos, hfeed, rfl⟩
    · exact .inl rfl

/-- The points of a move have the modes that are in force after it. -/
theorem modes_of_move {q : Point α} (hs : s.started = true) (ha : l.action = .move)
    (h : q ∈ (step t p s l index).points) :
    ∃ place, q = .make place (s.onward l).modal.motion.kind (s.block + 1) (s.onward l).modal.feed
      (some index) l.aux? := by
  rw [step_of_move hs ha, move] at h
  dsimp only at h
  rw [onward_motion, onward_feed, ← Modal.withModesOf_motion, ← Modal.withModesOf_feed]
  split_ifs at h
  · cases h
  · obtain ⟨place, -, rfl⟩ := List.mem_map.1 h
    exact ⟨place, rfl⟩

/-- A line that leads onward to what lines say does what they say. -/
theorem looksBack_of_onward (hout : v.outcome = step t p v.before v.line v.index)
    (honward : v.outcome.state = v.before.onward v.line)
    (hstate : v.outcome.state = lines.foldl State.onward .initial) : v.LooksBack lines := by
  have hrecalls : v.outcome.state.Recalls lines := hstate ▸ recalls_foldl lines
  have hmove : v.before.started = true → v.line.action = .move → ∀ q ∈ v.outcome.points,
      ∃ place, q = .make place ((lastOf? (·.motion?) lines).getD .rapid).kind (v.before.block + 1)
        ((lastOf? (·.feed?) lines).getD 0.0) (some v.index) v.line.aux? := by
    intro hs ha q hq
    rw [hout] at hq
    rw [← hrecalls.motion, ← hrecalls.feed, honward]
    exact modes_of_move hs ha hq
  refine ⟨hstate, hrecalls, ?_, ?_, ?_, ?_⟩
  · intro hs ha q hq
    obtain ⟨place, rfl⟩ := hmove hs ha q hq
    rfl
  · intro hs ha q hq
    obtain ⟨place, rfl⟩ := hmove hs ha q hq
    exact hasFeed_make ..
  · intro hs ha q hq
    obtain ⟨place, rfl⟩ := hmove hs ha q hq
    rfl
  · intro hne
    rw [hout] at hne ⊢
    rw [position_step]
    exact lastPlace?_eq_some_getD hne _

/-- **What a plain program does, its lines say.**  Take any line of a program that calls no cycle.
It is walked over, and the state after it is a function of this line and those before it: the motion
is that of the last line that selects one, the feed is the last one that is not below zero, and each
coordinate stands for the last word that gives it.  If the line is a move once the tool has a place,
its points have this motion, this feed and the M code of the line, and the last of them is where the
tool is then. -/
theorem looksBack_of_plain (hplain : ∀ l ∈ p.lines.toList, l.isPlain = true)
    (hi : i < p.lines.size) :
    ∃ v ∈ visits t p, v.index = i ∧ p.lines[i]? = some v.line ∧
      v.LooksBack (p.lines.toList.take (i + 1)) := by
  obtain ⟨v, hv, hindex, hbefore⟩ :=
    exists_visitFrom_of_plain (t := t) (s := .initial) hplain hi (Nat.zero_le i)
  obtain ⟨-, hline, hout⟩ := of_mem_visitsFrom hv
  rw [hindex] at hline
  have hmem : v.line ∈ p.lines.toList := by
    rw [Array.mem_toList_iff]
    exact Array.mem_of_getElem? hline
  have htake : p.lines.toList.take (i + 1) = p.lines.toList.take i ++ [v.line] := by
    rw [List.take_add_one, Array.getElem?_toList, hline]
    rfl
  have honward : v.outcome.state = v.before.onward v.line := by
    rw [hout, (onward_of_plain (hplain v.line hmem)).1]
  refine ⟨v, hv, hindex, hline, looksBack_of_onward hout honward ?_⟩
  rw [honward, hbefore, htake, List.foldl_concat, List.drop_zero]

end Walk

/-- Modes before the start, repeated words, a feed below zero, and a move that leads nowhere. -/
def Source.modalWords : Source :=
  ⟨#["G3 F0.3", "G0 X20 Z5 X99 G1 F0.2 F5", "G1 Z-10 F-4 M8", "X20.0000000001", "X25 F0.1 M9 M7"]⟩

/-- The third line cuts with the feed of the second, and the last one from where the third has
ended. -/
theorem Walk.looksBack_of_plain_modalWords :
    ∃ p : Program Float, Program.read Source.modalWords = .ok p ∧
      (∀ l ∈ p.lines.toList, l.isPlain = true) ∧
      (Walk.points .coarse p).map (fun q => (q.toPosition, q.kind, q.feed, q.aux)) =
        [(⟨20.0, 5.0⟩, .start, 0.2, none), (⟨20.0, -10.0⟩, .feed, 0.2, some ⟨8⟩),
          (⟨25.0, -10.0⟩, .feed, 0.1, some ⟨9⟩)] ∧
      ∃ v ∈ Walk.visits .coarse p, v.index = 4 ∧ p.lines[4]? = some v.line ∧
        v.LooksBack (p.lines.toList.take (4 + 1)) := by
  have hread : (Program.read (α := Float) Source.modalWords).toOption.map (fun p : Program Float =>
      p.lines.toList.all (·.isPlain) && decide (4 < p.lines.size) &&
        decide ((Walk.points .coarse p).map (fun q => (q.toPosition, q.kind, q.feed, q.aux)) =
          [(⟨20.0, 5.0⟩, .start, 0.2, none), (⟨20.0, -10.0⟩, .feed, 0.2, some ⟨8⟩),
            (⟨25.0, -10.0⟩, .feed, 0.1, some ⟨9⟩)])) = some true := by
    decide +kernel
  obtain ⟨p, hp, hrun⟩ := Source.exists_read_of_map_eq_some hread
  obtain ⟨hrest, hpoints⟩ := Bool.and_eq_true_iff.1 hrun
  obtain ⟨hplain, hsize⟩ := Bool.and_eq_true_iff.1 hrest
  rw [List.all_eq_true] at hplain
  exact ⟨p, hp, hplain, of_decide_eq_true hpoints,
    looksBack_of_plain hplain (of_decide_eq_true hsize)⟩

end Lathe
