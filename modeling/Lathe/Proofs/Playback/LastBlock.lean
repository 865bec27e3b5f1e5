import Lathe.Proofs.Playback.Delivery
import Lathe.Proofs.Playback.Schedule

/-!
# The last block

A player keeps the block of the last point that it has reached.  Ticks and rewinding take it down
together with the cursor, but `Player.play` also moves the cursor by itself, when it steps off the
stop that playback is parked on.  The tick that follows makes up for this, unless the step has led
onto the last point: no tick moves on from there, and the last block stays behind.

`Player.lastBlock_run_iff` says that there is no other way for this to happen, and for how long it
lasts.

* `Player.stepsOntoEnd` : playing steps off a stop onto the last point.
* `Player.takesBlock` : an operation takes the last block down, whatever it was before.
* `Player.Stranded` : a schedule has stepped onto the last point, and since then nothing has taken
  the last block down.
-/

namespace Lathe

namespace Player

variable {α : Type} {p q r : Player α} {op : Operation α} {ops : List (Operation α)}

/-- Playing moves the cursor from a stop on the last point but one onto the last one: playback is
neither running nor at its end, and parked there. -/
def stepsOntoEnd (p : Player α) (op : Operation α) : Bool :=
  op.isPlay && decide (p.phase ≠ .playing ∧ p.phase ≠ .finished) &&
    decide (p.index + 2 = p.trace.size) && p.isParked p.index

/-- The operation takes the last block down from the trace: it rewinds, or it starts playback
before the last point. -/
def takesBlock (p : Player α) : Operation α → Bool
  | .load _ | .reset => true
  | .play _ => decide (p.phase ≠ .playing ∧ p.departure + 1 < p.trace.size)
  | _ => false

/-- The last block is not that of the point under the cursor. -/
def Lags (p : Player α) : Prop := p.lastBlock ≠ p.blockAt p.index

/-- Only playback that has come to its end on the last point may have a last block that is not that
of the point under the cursor. -/
def EndsLagging (p : Player α) : Prop :=
  p.Lags → p.phase = .finished ∧ p.index + 1 = p.trace.size

theorem stepsOntoEnd_play_iff {now : Nat} : p.stepsOntoEnd (.play now) = true ↔
    (p.phase ≠ .playing ∧ p.phase ≠ .finished) ∧ p.index + 2 = p.trace.size ∧
      p.isParked p.index = true := by
  simp [stepsOntoEnd, Operation.isPlay, and_assoc]

theorem lags_congr (ht : q.trace = p.trace) (hi : q.index = p.index)
    (hb : q.lastBlock = p.lastBlock) : q.Lags ↔ p.Lags := by
  rw [Lags, Lags, blockAt, blockAt, ht, hi, hb]

theorem not_lags_reset (p : Player α) : ¬ p.reset.Lags :=
  not_not_intro rfl

/-- The point after a stop that playback is parked on belongs to another block. -/
theorem blockAt_ne_of_isParked {i : Nat} (h : p.isParked i = true) (hi : i + 1 < p.trace.size) :
    p.blockAt i ≠ p.blockAt (i + 1) := by
  obtain ⟨a, ha⟩ := exists_get? (Nat.lt_of_succ_lt hi)
  obtain ⟨b, hb⟩ := exists_get? hi
  rw [isParked, Bool.and_eq_true] at h
  have hends := h.1
  rw [Trace.endsBlock, ha, hb] at hends
  simpa [blockAt, ha, hb] using hends

/-- Playback that restarts a trace of two points on a stop was on the second point before: the
first one does not end the program. -/
theorem Sound.index_eq_one_of_isParked (h : p.Sound) (hf : p.phase = .finished)
    (hs : p.trace.size = 2) (hpark : p.isParked 0 = true) : p.index = 1 := by
  obtain hlast | ⟨-, hstop⟩ := h.finished hf
  · omega
  · have hne : p.index ≠ 0 := by
      intro hi
      rw [hi] at hstop
      simp [isParked, hstop] at hpark
    have := h.index_lt
    omega

variable [Scalar α]

/-- Every tick of a schedule has a budget if the ticks of all operations but the last have one, and
the tick of the last one, too. -/
theorem isBudgeted_concat_iff : p.isBudgeted (ops ++ [op]) = true ↔
    p.isBudgeted ops = true ∧ ∀ q, (p.run ops).ticking? op = some q → 0.0 < q.budget := by
  induction ops generalizing p with
  | nil => simp [isBudgeted, run, Option.all_eq_true]
  | cons o ops ih =>
    rw [List.cons_append, isBudgeted, isBudgeted, Bool.and_eq_true, Bool.and_eq_true, ih, and_assoc]
    rfl

/-! ### Operations that run a tick -/

/-- A tick that moves takes the last block down. -/
theorem not_lags_of_lt (hq : p.ticking? op = some q) (hpos : 0.0 < q.budget)
    (hi : q.index + 1 < q.trace.size) : ¬ (p.after op).Lags := by
  have hlt : q.index < q.advanced.1 := index_lt_advanced hpos hi
  have hblock : (p.after op).lastBlock = q.blockAt q.advanced.1 := by
    rw [after_of_ticking?_eq_some hq]
    exact tick_lastBlock.trans (if_neg (Nat.ne_of_gt hlt))
  rw [Lags, hblock, index_after_of_ticking?_eq_some hq,
    (sameCourse_after_of_ticking?_eq_some hq).blockAt]
  exact not_not_intro rfl

/-- A tick that starts on the last point ends there and leaves the last block as it was. -/
theorem after_of_size_le (hq : p.ticking? op = some q) (hi : q.trace.size ≤ q.index + 1) :
    (p.after op).phase = .finished ∧ (p.after op).index = q.index ∧
      (p.after op).lastBlock = p.lastBlock := by
  have hadv := advanced_of_size_le hi
  have hrest : q.advanced.2.halt.rest? = some (.finished, .finished) := by rw [hadv]; rfl
  have hblock := (ticking_of_ticking?_eq_some hq).lastBlock
  rw [after_of_ticking?_eq_some hq]
  refine ⟨(tick_of_rest hrest).1, ?_, ?_⟩
  · exact tick_index.trans (by rw [hadv])
  · exact tick_lastBlock.trans (by rw [hadv, if_pos rfl, hblock])

/-- An operation whose tick starts before the last point does not step onto it, and takes the last
block down if there is need to. -/
theorem EndsLagging.takes_of_lt (hlag : p.EndsLagging) (hq : p.ticking? op = some q)
    (hi : q.index + 1 < q.trace.size) :
    ¬ (p.stepsOntoEnd op = true ∨ (p.Lags ∧ p.takesBlock op = false)) := by
  have ht := ticking_of_ticking?_eq_some hq
  rw [ht.sameCourse.trace, ht.index] at hi
  cases op with
  | play now =>
    have hp := not_playing_of_ticking?_play hq
    rw [tickStart_of_ne hp] at hi
    rw [stepsOntoEnd_play_iff, takesBlock, decide_eq_false_iff_not]
    rintro (⟨⟨-, hf⟩, hidx, hpark⟩ | ⟨-, htakes⟩)
    · rw [departure, origin_eq_index hf (by omega), if_pos hpark] at hi
      omega
    · exact htakes ⟨hp, hi⟩
  | fire k now =>
    rintro (hsteps | ⟨hl, -⟩)
    · cases hsteps
    · have := (hlag hl).1.symm.trans (playing_of_ticking?_fire hq)
      cases this
  | _ => cases hq

/-- An operation whose tick starts on the last point plays from the stop before it. -/
theorem Sound.of_ticking_of_size_le (h : p.Sound) (hq : p.ticking? op = some q)
    (hi : q.trace.size ≤ q.index + 1) :
    op.isPlay = true ∧ p.phase ≠ .playing ∧ p.isParked p.origin = true ∧
      p.origin + 2 = p.trace.size ∧ q.index = p.origin + 1 := by
  have ht := ticking_of_ticking?_eq_some hq
  rw [ht.sameCourse.trace, ht.index] at hi
  rw [ht.index]
  cases op with
  | play now =>
    have hp := not_playing_of_ticking?_play hq
    have horigin := origin_lt (ht.two_le hp)
    rw [tickStart_of_ne hp] at hi ⊢
    unfold departure at hi ⊢
    split_ifs at hi ⊢ with hpark
    · exact ⟨rfl, hp, hpark, by omega, rfl⟩
    · omega
  | fire k now =>
    have hp := playing_of_ticking?_fire hq
    rw [tickStart_of_playing hp] at hi
    exact absurd (h.before_last (.inl hp)) (by omega)
  | _ => cases hq

/-- What the last block is after a tick that starts on the last point: that of the stop before,
unless playback was on the last point already. -/
theorem Sound.lags_after_of_size_le (h : p.Sound) (hlag : p.EndsLagging)
    (hq : p.ticking? op = some q) (hi : q.trace.size ≤ q.index + 1) :
    (p.after op).Lags ↔ p.stepsOntoEnd op = true ∨ (p.Lags ∧ p.takesBlock op = false) := by
  obtain ⟨hop, hp, hpark, hsize, hstart⟩ := h.of_ticking_of_size_le hq hi
  obtain ⟨-, hindex, hblock⟩ := after_of_size_le hq hi
  have hc := after_sameCourse_of_ticking?_eq_some hq
  cases op with
  | play now =>
    have hnot : p.takesBlock (.play now) = false := by
      rw [takesBlock, departure, if_pos hpark]
      exact decide_eq_false (by omega)
    rw [hnot, eq_self, and_true, stepsOntoEnd_play_iff]
    by_cases hf : p.phase = .finished
    · have hzero : p.origin = 0 := by rw [origin, if_pos (.inl hf)]
      rw [hzero] at hpark hsize hstart
      have hone := h.index_eq_one_of_isParked hf hsize.symm hpark
      rw [lags_congr hc.trace (by omega) hblock]
      simp [hf]
    · have hlt : p.index + 1 < p.trace.size := by
        cases hphase : p.phase with
        | idle =>
          have := (h.idle hphase).1
          omega
        | paused => exact h.before_last (.inr hphase)
        | playing => exact absurd hphase hp
        | finished => exact absurd hphase hf
      rw [origin_eq_index hf hlt] at hpark hsize hstart
      refine iff_of_true ?_ (.inl ⟨⟨hp, hf⟩, hsize, hpark⟩)
      -- before the operation the last block was that of the stop
      have hright : p.lastBlock = p.blockAt p.index := not_not.1 fun hl => hf (hlag hl).1
      rw [Lags, hblock, hindex, hstart, hc.blockAt, hright]
      exact blockAt_ne_of_isParked hpark hlt
  | _ => cases hop

/-! ### All operations -/

/-- What an operation does to the last block. -/
structure LagStep (p : Player α) (op : Operation α) : Prop where
  /-- If the last block is not that of the point under the cursor, playback is at its end. -/
  ends : (p.after op).EndsLagging
  /-- This is so after stepping onto the last point, and until the last block is taken down. -/
  lags_iff : (p.after op).Lags ↔
    p.stepsOntoEnd op = true ∨ (p.Lags ∧ p.takesBlock op = false)

theorem Sound.lagStep_of_ticking?_eq_some (h : p.Sound) (hlag : p.EndsLagging)
    (hq : p.ticking? op = some q) (hpos : 0.0 < q.budget) : p.LagStep op := by
  by_cases hi : q.index + 1 < q.trace.size
  · have hnot := not_lags_of_lt hq hpos hi
    exact ⟨fun hl => absurd hl hnot, iff_of_false hnot (hlag.takes_of_lt hq hi)⟩
  · rw [Nat.not_lt] at hi
    refine ⟨fun _ => ?_, h.lags_after_of_size_le hlag hq hi⟩
    obtain ⟨-, -, -, hsize, hstart⟩ := h.of_ticking_of_size_le hq hi
    obtain ⟨hphase, hindex, -⟩ := after_of_size_le hq hi
    rw [hindex, hstart, (after_sameCourse_of_ticking?_eq_some hq).trace]
    exact ⟨hphase, hsize⟩

/-- An operation that leaves the cursor and the last block as they are. -/
theorem EndsLagging.lagStep_of_kept (hlag : p.EndsLagging) (ht : (p.after op).trace = p.trace)
    (hi : (p.after op).index = p.index) (hb : (p.after op).lastBlock = p.lastBlock)
    (hphase : (p.after op).phase = p.phase ∨ p.phase = .playing)
    (hsteps : p.stepsOntoEnd op = false) (htakes : p.takesBlock op = false) : p.LagStep op := by
  have hiff := lags_congr ht hi hb
  refine ⟨fun hl => ?_, ?_⟩
  · obtain ⟨hf, hlast⟩ := hlag (hiff.1 hl)
    rw [hi, ht]
    refine ⟨?_, hlast⟩
    obtain hp | hp := hphase
    · rw [hp, hf]
    · rw [hf] at hp; cases hp
  · simp [hiff, hsteps, htakes]

omit [Scalar α] in
/-- Playing that runs no tick neither steps nor takes anything down. -/
theorem not_stepsOntoEnd_of_ticking?_eq_none {now : Nat}
    (hn : p.ticking? (.play now) = none) :
    p.stepsOntoEnd (.play now) = false ∧ p.takesBlock (.play now) = false := by
  have hnone : p.phase = .playing ∨ p.trace.size < 2 := by
    by_contra hne
    rw [ticking?, if_neg hne] at hn
    cases hn
  rw [Bool.eq_false_iff, Ne, stepsOntoEnd_play_iff, takesBlock, decide_eq_false_iff_not]
  constructor
  · rintro ⟨⟨hp, -⟩, hs, -⟩
    exact hnone.elim hp (by omega)
  · rintro ⟨hp, hs⟩
    exact hnone.elim hp (by omega)

theorem Sound.lagStep_of_ticking?_eq_none (h : p.Sound) (hlag : p.EndsLagging)
    (hn : p.ticking? op = none) : p.LagStep op := by
  cases op with
  | load t =>
    have hnot : ¬ (p.after (.load t)).Lags := not_lags_reset { p with trace := t }
    exact ⟨fun hl => absurd hl hnot, iff_of_false hnot (by simp [takesBlock, stepsOntoEnd,
      Operation.isPlay])⟩
  | reset =>
    have hnot : ¬ (p.after .reset).Lags := not_lags_reset p
    exact ⟨fun hl => absurd hl hnot, iff_of_false hnot (by simp [takesBlock, stepsOntoEnd,
      Operation.isPlay])⟩
  | play now =>
    obtain ⟨hsteps, htakes⟩ := not_stepsOntoEnd_of_ticking?_eq_none hn
    have hafter := after_play_of_ticking?_eq_none hn
    exact hlag.lagStep_of_kept (by rw [hafter]) (by rw [hafter]) (by rw [hafter])
      (by rw [hafter]; exact .inl rfl) hsteps htakes
  | fire k now =>
    have hw := h.waits rfl hn
    exact hlag.lagStep_of_kept hw.sameCourse.trace hw.index hw.lastBlock
      (hw.phase.imp_right And.left) rfl rfl
  | pause =>
    have hw := h.waits rfl hn
    exact hlag.lagStep_of_kept hw.sameCourse.trace hw.index hw.lastBlock
      (hw.phase.imp_right And.left) rfl rfl
  | setSpeed speed =>
    have hw := h.waits rfl hn
    exact hlag.lagStep_of_kept hw.sameCourse.trace hw.index hw.lastBlock
      (hw.phase.imp_right And.left) rfl rfl
  | setSingleBlock on => exact hlag.lagStep_of_kept rfl rfl rfl (.inl rfl) rfl rfl
  | setOptionalStop on => exact hlag.lagStep_of_kept rfl rfl rfl (.inl rfl) rfl rfl

/-- **What one operation does to the last block.** -/
theorem Sound.lagStep (h : p.Sound) (hlag : p.EndsLagging)
    (hpos : ∀ q, p.ticking? op = some q → 0.0 < q.budget) : p.LagStep op := by
  cases hq : p.ticking? op with
  | some q => exact h.lagStep_of_ticking?_eq_some hlag hq (hpos q hq)
  | none => exact h.lagStep_of_ticking?_eq_none hlag hq

/-! ### Schedules -/

/-- A schedule has stepped off a stop onto the last point, and no operation since then has taken
the last block down. -/
def Stranded (p : Player α) (ops : List (Operation α)) : Prop :=
  ∃ past op later, ops = past ++ op :: later ∧ (p.run past).stepsOntoEnd op = true ∧
    ∀ before o rest, later = before ++ o :: rest →
      (p.run (past ++ op :: before)).takesBlock o = false

theorem not_stranded_nil : ¬ p.Stranded [] := by
  rintro ⟨past, op, later, h, -⟩
  simp at h

theorem stranded_concat_iff : p.Stranded (ops ++ [op]) ↔
    (p.run ops).stepsOntoEnd op = true ∨
      (p.Stranded ops ∧ (p.run ops).takesBlock op = false) := by
  constructor
  · rintro ⟨past, o, later, hops, hsteps, hlater⟩
    obtain rfl | ⟨later, o', rfl⟩ := later.eq_nil_or_concat'
    · obtain ⟨rfl, hop⟩ := List.append_inj' hops rfl
      obtain rfl := List.singleton_inj.1 hop
      exact .inl hsteps
    · have hops' : ops ++ [op] = (past ++ o :: later) ++ [o'] := by simpa using hops
      obtain ⟨rfl, hop⟩ := List.append_inj' hops' rfl
      obtain rfl := List.singleton_inj.1 hop
      refine .inr ⟨⟨past, o, later, rfl, hsteps, ?_⟩, hlater later op [] rfl⟩
      intro before o' rest hrest
      exact hlater before o' (rest ++ [op]) (by rw [hrest]; simp)
  · rintro (hsteps | ⟨⟨past, o, later, rfl, hsteps, hlater⟩, htakes⟩)
    · exact ⟨ops, op, [], rfl, hsteps, by simp⟩
    · refine ⟨past, o, later ++ [op], by simp, hsteps, ?_⟩
      intro before o' rest hrest
      obtain rfl | ⟨rest, o'', rfl⟩ := rest.eq_nil_or_concat'
      · obtain ⟨rfl, hop⟩ := List.append_inj' hrest rfl
        obtain rfl := List.singleton_inj.1 hop
        exact htakes
      · have hrest' : later ++ [op] = (before ++ o' :: rest) ++ [o''] := by simpa using hrest
        exact hlater before o' rest (List.append_inj' hrest' rfl).1

/-- The last block lags behind after just those schedules that are stranded. -/
theorem Sound.lags_run_iff (h : p.Sound) (hright : ¬ p.Lags) (hpos : p.isBudgeted ops = true) :
    (p.run ops).EndsLagging ∧ ((p.run ops).Lags ↔ p.Stranded ops) := by
  induction ops using List.reverseRecOn with
  | nil => exact ⟨fun hl => absurd hl hright, iff_of_false hright not_stranded_nil⟩
  | append_singleton ops op ih =>
    obtain ⟨hpos, hpos'⟩ := isBudgeted_concat_iff.1 hpos
    obtain ⟨hlag, hiff⟩ := ih hpos
    have hstep := (h.run ops).lagStep hlag hpos'
    rw [run_concat, stranded_concat_iff, ← hiff]
    exact ⟨hstep.ends, hstep.lags_iff⟩

/-- **The last block names the point under the cursor, except where playing has stepped onto the
last point.**  From a new player on, let every tick of a schedule have a budget, and let there be a
trace with points at its end.  Then there is a point under the cursor, and the last block is that
of this point unless the schedule is stranded: it has played from a stop on the last point but one,
so that the cursor was moved by stepping off the stop alone, and since then it has neither rewound,
nor loaded a trace, nor started playback before the last point. -/
theorem lastBlock_run_iff {baseStep speed : α} {interval : Nat} {singleBlock optionalStop : Bool}
    (hnew : p = .new baseStep interval speed singleBlock optionalStop)
    (hpos : p.isBudgeted ops = true) (hsize : (p.run ops).trace.size ≠ 0) :
    ∃ a, (p.run ops).current? = some a ∧
      ((p.run ops).lastBlock = a.block ↔ ¬ p.Stranded ops) := by
  have hsound : p.Sound := by
    rw [hnew]
    exact sound_new ..
  have hright : ¬ p.Lags := by
    rw [hnew]
    exact not_not_intro rfl
  have hlt : (p.run ops).index < (p.run ops).trace.size :=
    (hsound.run ops).index_lt.resolve_right fun h => hsize h.2
  obtain ⟨a, ha⟩ := exists_get? hlt
  refine ⟨a, ha, ?_⟩
  rw [← (hsound.lags_run_iff hright hpos).2, Lags, not_not, blockAt, ha]
  rfl

/-- A path with a stop on the last point but one, played to the stop and on to the end. -/
def playedOverStop : List (Operation Float) :=
  [.load (.straight [(1, none), (2, none), (3, some ⟨0⟩), (4, none)]), .play 0, .play 0]

/-- Played again from its end, playback is back at the stop and so is the last block. -/
theorem lastBlock_run_iff_playedAgain :
    ((Player.new 0.4 16 100.0 false false).run (playedOverStop ++ [.play 0])).lastBlock = 3 ∧
      ∃ a, ((Player.new 0.4 16 100.0 false false).run
          (playedOverStop ++ [.play 0])).current? = some a ∧
        (((Player.new 0.4 16 100.0 false false).run (playedOverStop ++ [.play 0])).lastBlock =
          a.block ↔
            ¬ (Player.new 0.4 16 100.0 false false).Stranded (playedOverStop ++ [.play 0])) :=
  ⟨by decide +kernel, lastBlock_run_iff rfl (by decide +kernel) (by decide +kernel)⟩

/-- **Stepping off a stop onto the last point leaves the last block behind.**  Playback is at its
end on a point of block 4, and the last block is 3. -/
theorem lastBlock_ne_playedOverStop :
    (Player.new 0.4 16 100.0 false false).isBudgeted playedOverStop = true ∧
      ((Player.new 0.4 16 100.0 false false).run playedOverStop).current?.map Point.block = some 4 ∧
      ((Player.new 0.4 16 100.0 false false).run playedOverStop).lastBlock = 3 := by
  decide +kernel

end Player

end Lathe
