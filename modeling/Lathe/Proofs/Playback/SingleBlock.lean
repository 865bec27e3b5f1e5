import Lathe.Proofs.Playback.Rounds

/-!
# Single-block mode

In single-block mode the operator is asked at the end of every block.  Where that is can be read
off the trace: `Trace.blockEnds` are the points whose successors belong to another block, and
`Trace.singleBlockHalts` what is seen there, up to the first one that ends the program.  Unless
there are program stops, playing round by round halts at just these points, one after the other
(`Host.rounds_eq_singleBlockHalts`).
-/

namespace Lathe

namespace Trace

variable {α : Type} {t : Trace α} {i k : Nat}

/-- The point and the one after it belong to different blocks. -/
def changesBlock (t : Trace α) (k : Nat) : Bool :=
  (t.get? k).map Point.block ≠ (t.get? (k + 1)).map Point.block

/-- The M code that a point carries. -/
def codeAt? (t : Trace α) (k : Nat) : Option AuxCode := (t.get? k).bind Point.aux

/-- The point carries an M2 or M30. -/
def carriesFinish (t : Trace α) (k : Nat) : Bool :=
  t.codeAt? k = some ⟨2⟩ ∨ t.codeAt? k = some ⟨30⟩

/-- The points after point `i`, but for the last one, at which blocks end. -/
def blockEnds (t : Trace α) (i : Nat) : List Nat :=
  (List.range (t.size - 1)).filter fun k => decide (i < k) && t.changesBlock k

/-- Where single-block mode halts after point `i`, and as what: paused at the block ends before
the first one that ends the program, and finished there, or else at the last point. -/
def singleBlockHalts (t : Trace α) (i : Nat) : List (Nat × Phase × Mode) :=
  ((t.blockEnds i).takeWhile fun k => !t.carriesFinish k).map
      (fun k => (k, .paused, .singleBlockPaused)) ++
    [(((t.blockEnds i).find? t.carriesFinish).getD (t.size - 1), .finished, .finished)]

/-! ### The block ends in order -/

/-- The numbers above `i` with a property are the first of them and those above that one. -/
theorem filter_range_eq_cons {f : Nat → Bool} {n : Nat} (hik : i < k) (hkn : k < n)
    (hk : f k = true) (hclear : ∀ m, i < m → m < k → f m = false) :
    (List.range n).filter (fun m => decide (i < m) && f m) =
      k :: (List.range n).filter (fun m => decide (k < m) && f m) := by
  induction n with
  | zero => omega
  | succ n ih =>
    rw [List.range_succ, List.filter_append, List.filter_append]
    obtain hlt | rfl : k < n ∨ k = n := by omega
    · have hin : i < n := by omega
      rw [ih hlt, List.cons_append]
      simp [List.filter_cons, hlt, hin]
    · have hbelow : (List.range k).filter (fun m => decide (i < m) && f m) = [] := by
        rw [List.filter_eq_nil_iff]
        intro m hm
        have hmk := List.mem_range.1 hm
        by_cases him : i < m
        · simp [hclear m him hmk]
        · simp [him]
      have habove : (List.range k).filter (fun m => decide (k < m) && f m) = [] := by
        rw [List.filter_eq_nil_iff]
        intro m hm
        have hmk := List.mem_range.1 hm
        simp [Nat.lt_asymm hmk]
      rw [hbelow, habove]
      simp [hik, hk]

theorem blockEnds_eq_cons (hik : i < k) (hk : k + 1 < t.size) (hend : t.changesBlock k = true)
    (hclear : ∀ m, i < m → m < k → t.changesBlock m = false) :
    t.blockEnds i = k :: t.blockEnds k :=
  filter_range_eq_cons hik (by omega) hend hclear

theorem blockEnds_eq_nil (hclear : ∀ m, i < m → m + 1 < t.size → t.changesBlock m = false) :
    t.blockEnds i = [] := by
  rw [blockEnds, List.filter_eq_nil_iff]
  intro m hm
  have hms := List.mem_range.1 hm
  by_cases him : i < m
  · simp [hclear m him (by omega)]
  · simp [him]

theorem singleBlockHalts_of_cons (h : t.blockEnds i = k :: t.blockEnds k)
    (hk : t.carriesFinish k = false) :
    t.singleBlockHalts i = (k, .paused, .singleBlockPaused) :: t.singleBlockHalts k := by
  simp [singleBlockHalts, h, hk]

theorem singleBlockHalts_of_finish (h : t.blockEnds i = k :: t.blockEnds k)
    (hk : t.carriesFinish k = true) : t.singleBlockHalts i = [(k, .finished, .finished)] := by
  simp [singleBlockHalts, h, hk]

theorem singleBlockHalts_of_nil (h : t.blockEnds i = []) :
    t.singleBlockHalts i = [(t.size - 1, .finished, .finished)] := by
  simp [singleBlockHalts, h]

/-! ### What playback finds at a point -/

theorem stop?_eq_codeAt? : (t.get? k).bind Point.stop? = (t.codeAt? k).bind AuxCode.stop? := by
  rw [codeAt?, Option.bind_assoc]
  rfl

theorem stop?_eq_finish_iff :
    (t.get? k).bind Point.stop? = some .finish ↔ t.carriesFinish k = true := by
  rw [stop?_eq_codeAt?, carriesFinish]
  obtain hnone | ⟨⟨n⟩, hcode⟩ := Option.eq_none_or_eq_some (t.codeAt? k)
  · simp [hnone]
  · simp only [hcode, Option.bind_some, AuxCode.stop?]
    split <;> simp_all

theorem exists_mem_of_codeAt? {c : AuxCode} (h : t.codeAt? k = some c) :
    ∃ a ∈ t.points, a.aux = some c := by
  obtain ⟨a, hget, haux⟩ := Option.bind_eq_some_iff.1 h
  exact ⟨a, Array.mem_of_getElem? hget, haux⟩

end Trace

namespace Player

variable {α : Type} {p q : Player α} {i k : Nat}

theorem endsBlock_eq_changesBlock (hk : k + 1 < p.trace.size) :
    p.trace.endsBlock k = p.trace.changesBlock k := by
  obtain ⟨a, ha⟩ := exists_get? (Nat.lt_of_succ_lt hk)
  obtain ⟨b, hb⟩ := exists_get? hk
  simp [Trace.endsBlock, Trace.changesBlock, ha, hb]

/-- Single-block mode is on, and no program stop would halt playback as well: no point carries an
M0, and an M1 only with optional stops off. -/
structure HaltsByBlock (p : Player α) : Prop where
  singleBlock : p.singleBlock = true
  no_stop : ∀ a ∈ p.trace.points, a.aux ≠ some ⟨0⟩
  no_optional : ∀ a ∈ p.trace.points, a.aux = some ⟨1⟩ → p.optionalStop = false

namespace HaltsByBlock

theorem congr (h : p.HaltsByBlock) (hc : SameCourse q p) : q.HaltsByBlock :=
  ⟨hc.singleBlock.trans h.singleBlock, hc.trace ▸ h.no_stop,
    fun a ha haux => hc.optionalStop.trans (h.no_optional a (hc.trace ▸ ha) haux)⟩

theorem stop?_cases (h : p.HaltsByBlock) :
    (p.trace.get? k).bind Point.stop? = none ∨
      (p.trace.get? k).bind Point.stop? = some .finish ∨
      ((p.trace.get? k).bind Point.stop? = some .optional ∧ p.optionalStop = false) := by
  rw [Trace.stop?_eq_codeAt?]
  obtain hnone | ⟨⟨n⟩, hcode⟩ := Option.eq_none_or_eq_some (p.trace.codeAt? k)
  · exact .inl (by rw [hnone]; rfl)
  · obtain ⟨a, hmem, haux⟩ := Trace.exists_mem_of_codeAt? hcode
    have hstop := h.no_stop a hmem
    have hoptional := h.no_optional a hmem
    simp only [hcode, Option.bind_some, AuxCode.stop?]
    split <;> simp_all

theorem haltAt?_eq (h : p.HaltsByBlock) (hk : k + 1 < p.trace.size) :
    p.haltAt? k = if p.trace.changesBlock k = true then
      some (if p.trace.carriesFinish k = true then .programEnd else .singleBlock) else none := by
  rw [haltAt?, if_neg (by omega), endsBlock_eq_changesBlock hk]
  by_cases hend : p.trace.changesBlock k = true
  · rw [if_pos hend, if_pos hend]
    by_cases hfinish : p.trace.carriesFinish k = true
    · rw [if_pos hfinish, Trace.stop?_eq_finish_iff.2 hfinish]
      rfl
    · have hne := mt Trace.stop?_eq_finish_iff.1 hfinish
      rw [if_neg hfinish]
      obtain hstop | hstop | ⟨hstop, hoff⟩ := h.stop?_cases (k := k)
      · simp [hstop, blockHalt?, h.singleBlock]
      · exact absurd hstop hne
      · simp [hstop, blockHalt?, h.singleBlock, hoff]
  · rw [if_neg hend, if_neg hend]

/-- No block ends before the first halt. -/
theorem changesBlock_eq_false (h : p.HaltsByBlock) (hfirst : p.IsFirstHalt i k) :
    ∀ m, i < m → m < k → p.trace.changesBlock m = false := by
  intro m hm hmk
  have hnone := hfirst.clear m hm hmk
  rw [h.haltAt?_eq (lt_size_of_haltAt?_eq_none hnone)] at hnone
  simpa using hnone

/-- Playback has nothing to step off when it resumes. -/
theorem isParked_eq_false (h : p.HaltsByBlock) : p.isParked k = false := by
  rw [isParked, Bool.and_eq_false_iff]
  right
  obtain hstop | hstop | ⟨hstop, hoff⟩ := h.stop?_cases (k := k)
  · rw [hstop]
  · rw [hstop]
  · rw [hstop]
    exact hoff

variable [Scalar α] {n : Nat}

theorem tickStart_eq (h : p.HaltsByBlock) (hr : p.Ready) : p.tickStart = p.index := by
  rw [tickStart_of_ne hr.ne_playing, departure_of_not_isParked h.isParked_eq_false, hr.origin_eq]

/-- A round ends at the first halt after the point that it starts from. -/
theorem isFirstHalt_of_settles (h : p.HaltsByBlock) (hs : p.Settles q n) :
    p.IsFirstHalt p.index q.index ∧ ∃ halt, p.haltAt? q.index = some halt ∧
      halt.rest? = some (q.phase, q.mode) := by
  have hstart := h.tickStart_eq hs.ready
  cases hs.bound with
  | ahead halt hfirst _ hhalt _ hrest =>
    rw [hstart] at hfirst
    exact ⟨hfirst, halt, hhalt, hrest⟩
  | here hlast =>
    have := hs.ready.ahead
    omega

/-- A round ends at the first of the places where single-block mode halts. -/
theorem singleBlockHalts_of_settles (h : p.HaltsByBlock) (hs : p.Settles q n) :
    p.trace.singleBlockHalts p.index = (q.index, q.phase, q.mode) ::
      if q.phase = .finished then [] else p.trace.singleBlockHalts q.index := by
  obtain ⟨hfirst, halt, hhalt, hrest⟩ := h.isFirstHalt_of_settles hs
  have hclear := h.changesBlock_eq_false hfirst
  have hsize := hs.index_lt_size
  by_cases hq : q.index + 1 < p.trace.size
  -- before the last point it is at the end of a block
  · rw [h.haltAt?_eq hq] at hhalt
    have hend : p.trace.changesBlock q.index = true := by
      by_contra hend
      rw [if_neg hend] at hhalt
      cases hhalt
    have hcons := Trace.blockEnds_eq_cons hfirst.lt hq hend hclear
    rw [if_pos hend, Option.some_inj] at hhalt
    by_cases hfinish : p.trace.carriesFinish q.index = true
    · rw [← hhalt, if_pos hfinish, Halt.rest?] at hrest
      obtain ⟨hphase, hmode⟩ := Prod.mk.inj (Option.some.inj hrest)
      rw [Trace.singleBlockHalts_of_finish hcons hfinish, ← hphase, ← hmode, if_pos rfl]
    · rw [← hhalt, if_neg hfinish, Halt.rest?] at hrest
      obtain ⟨hphase, hmode⟩ := Prod.mk.inj (Option.some.inj hrest)
      rw [Trace.singleBlockHalts_of_cons hcons (by simpa using hfinish), ← hphase, ← hmode,
        if_neg (by simp)]
  · rw [haltAt?_of_size_le (by omega), Option.some_inj] at hhalt
    rw [← hhalt, Halt.rest?] at hrest
    obtain ⟨hphase, hmode⟩ := Prod.mk.inj (Option.some.inj hrest)
    have hlast : p.trace.size - 1 = q.index := by omega
    have hnil : p.trace.blockEnds p.index = [] :=
      Trace.blockEnds_eq_nil fun m hm hms => hclear m hm (by omega)
    rw [Trace.singleBlockHalts_of_nil hnil, ← hphase, ← hmode, if_pos rfl, hlast]

end HaltsByBlock

end Player

namespace Host

variable {α : Type} [Scalar α] {late : Host α → Nat} {h : Host α}

/-- What is seen after a round: the cursor, what playback is doing, and what the operator is
told. -/
def seenAfter (round : Host α × Nat) : Nat × Phase × Mode :=
  (round.1.player.index, round.1.player.phase, round.1.player.mode)

theorem PlaysOut.map_seenAfter {rs : List (Host α × Nat)} (hrs : h.PlaysOut late rs)
    (hp : h.player.HaltsByBlock) :
    rs.map seenAfter = h.player.trace.singleBlockHalts h.player.index := by
  induction hrs with
  | ended _ hs hfinished =>
    rw [hp.singleBlockHalts_of_settles hs, if_pos hfinished]
    rfl
  | resumed _ hs hpaused _ ih =>
    rw [hp.singleBlockHalts_of_settles hs, if_neg (by simp [hpaused]), List.map_cons,
      ih (hp.congr hs.sameCourse), hs.sameCourse.trace]
    rfl

/-- **Single-block mode halts once at the end of every block.**  Take a player that is back at the
first of at least two points, in single-block mode and with no program stop that would halt it, and
play it round by round at any speed.  It is paused, and the operator told of single-block mode, at
the points after which the block changes, in their order and once at each, except for the first and
the last point; at the first of them that carries an M2 or M30, or else at the last point, it is
finished. -/
theorem rounds_eq_singleBlockHalts (p : Player α) (hsize : 2 ≤ p.trace.size)
    (hbudget : 0.0 < p.budget) (hp : p.HaltsByBlock) (now : Nat) (ticks : Array Tick)
    (late : Host α → Nat) :
    ∃ rs, rounds late ⟨p.reset, now, ticks⟩ = some rs ∧
      rs.map seenAfter = p.trace.singleBlockHalts 0 := by
  have hahead : p.reset.index + 1 < p.reset.trace.size := by
    change 0 + 1 < p.trace.size
    omega
  have hready : p.reset.Ready := ⟨Player.sound_reset p, .inl rfl, hahead, hbudget⟩
  have hcourse : Player.SameCourse p.reset p := ⟨rfl, rfl, rfl⟩
  obtain ⟨rs, hrs⟩ := exists_playsOut (h := ⟨p.reset, now, ticks⟩) late hready
  exact ⟨rs, hrs.rounds_eq, hrs.map_seenAfter (hp.congr hcourse)⟩

/-- Five blocks, with an optional stop on the third and the end of the program on the fourth. -/
def fiveBlocks : Player Float :=
  (Player.new 0.4 16 2.0 true false).load
    (.straight [(1, none), (2, none), (2, none), (3, none), (3, some ⟨1⟩), (4, some ⟨30⟩),
      (5, none)])

theorem rounds_eq_singleBlockHalts_fiveBlocks :
    ∃ rs, rounds (fun _ => 3) ⟨fiveBlocks.reset, 0, #[]⟩ = some rs ∧
      rs.map seenAfter = [(2, .paused, .singleBlockPaused), (4, .paused, .singleBlockPaused),
        (5, .finished, .finished)] := by
  have hp : fiveBlocks.HaltsByBlock := ⟨rfl, by decide +kernel, by decide +kernel⟩
  have hhalts : fiveBlocks.trace.singleBlockHalts 0 = [(2, .paused, .singleBlockPaused),
      (4, .paused, .singleBlockPaused), (5, .finished, .finished)] := by decide +kernel
  rw [← hhalts]
  exact rounds_eq_singleBlockHalts fiveBlocks (by decide +kernel) (by decide +kernel) hp 0 #[] _

end Host

end Lathe
