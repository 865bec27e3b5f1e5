import Lathe.Engine.Run
import Lathe.Proofs.Engine.Request
import Lathe.Proofs.Motion.Order
import Lathe.Proofs.Playback.Rounds
import Mathlib.Algebra.GroupWithZero.Nat

/-!
# A program is played to its end

A program that has just been loaded is played round by round, each halt on the way being resumed
at once.  `Session.summary` is what the rounds come to.  `Session.completes_of_justLoaded` says
that there is an end to them and what they come to then.

`Session.playThrough` bounds the ticks of a round and stops if a round has not moved the cursor,
so that it ends in any case.  Neither is ever called for: it gives the summary of the rounds
(`Session.playThrough_eq`).
-/

namespace Lathe

namespace Host

variable {α : Type} [Scalar α] {h h' : Host α} {n : Nat}

/-! ### Rounds up to the end -/

namespace PlaysOut

variable {late : Host α → Nat} {rs : List (Host α × Nat)}

/-- All rounds but the last one end in a pause, and the last one ends with the program. -/
theorem exists_last (hrs : h.PlaysOut late rs) :
    ∃ rs' last, rs = rs' ++ [last] ∧ (∀ r ∈ rs', r.1.player.phase = .paused) ∧
      last.1.player.phase = .finished ∧
      (last.1.player.lastTick.map Report.halt = some .programEnd ∨
        last.1.player.lastTick.map Report.halt = some .endOfTrace) := by
  induction hrs with
  | @ended _ h' n _ hs hp =>
    have hpaused : h'.player.phase ≠ .paused := by simp [hp]
    obtain ⟨-, hhalt⟩ := hs.paused_or_finished.resolve_left hpaused
    exact ⟨[], (h', n), rfl, List.forall_mem_nil _, hp, hhalt⟩
  | @resumed _ h' n _ _ _ hp _ ih =>
    obtain ⟨rs', last, rfl, hpaused, hlast⟩ := ih
    exact ⟨(h', n) :: rs', last, rfl, List.forall_mem_cons.2 ⟨hp, hpaused⟩, hlast⟩

/-- Every round moves the cursor on. -/
theorem pairwise_index (hrs : h.PlaysOut late rs) :
    (h.player.index :: rs.map fun r => r.1.player.index).Pairwise (· < ·) := by
  induction hrs with
  | ended _ hs => simpa using hs.index_lt
  | resumed _ hs _ _ ih =>
    refine .cons (fun i hi => ?_) ih
    obtain rfl | hi := List.mem_cons.1 hi
    · exact hs.index_lt
    · exact Nat.lt_trans hs.index_lt (List.rel_of_pairwise_cons ih hi)

/-- All ticks together are no more than the points that they move past. -/
theorem ticks_lt (hrs : h.PlaysOut late rs) :
    h.player.index + (rs.map Prod.snd).sum < h.player.trace.size := by
  induction hrs with
  | ended _ hs =>
    have hlt := hs.index_lt_size
    have hle := hs.le
    simp only [List.map_cons, List.map_nil, List.sum_cons, List.sum_nil]
    omega
  | resumed _ hs _ _ ih =>
    have hle := hs.le
    rw [hs.sameCourse.trace] at ih
    simp only [List.map_cons, List.sum_cons]
    omega

theorem index_lt_size (hrs : h.PlaysOut late rs) :
    ∀ r ∈ rs, r.1.player.index < r.1.player.trace.size := by
  induction hrs with
  | ended _ hs =>
    rw [List.forall_mem_singleton, hs.sameCourse.trace]
    exact hs.index_lt_size
  | resumed _ hs _ _ ih =>
    rw [List.forall_mem_cons, hs.sameCourse.trace]
    exact ⟨hs.index_lt_size, ih⟩

end PlaysOut

/-! ### Rounds that are on time -/

theorem drain_eq {next : Option Tick} {limit : Nat}
    (hsettle : h.settle (fun _ => 0) next = some (h', n)) (hn : n ≤ limit) :
    h.drain next limit = (h', n) := by
  induction limit generalizing h next n with
  | zero =>
    cases next with
    | none =>
      rw [settle_none] at hsettle
      cases hsettle
      rfl
    | some k =>
      obtain ⟨m, rfl, -⟩ := settle_some_eq_iff.1 hsettle
      omega
  | succ limit ih =>
    cases next with
    | none =>
      rw [settle_none] at hsettle
      cases hsettle
      rfl
    | some k =>
      obtain ⟨m, rfl, hrest⟩ := settle_some_eq_iff.1 hsettle
      have hdrain := ih hrest (by omega)
      change ({ h with now := k.due }.receive (h.player.fire k k.due)).drain
        (h.player.fire k k.due).2 limit = (h', m) at hdrain
      rw [drain]
      simp only [hdrain]

/-- A run with a limit is a round that does not reach it. -/
theorem run_eq {limit : Nat} (hround : h.round (fun _ => 0) = some (h', n))
    (hn : n - 1 ≤ limit - 1) : h.run limit = (h', n) := by
  obtain ⟨m, rfl, hrest⟩ := round_eq_iff.1 hround
  have hm : m ≤ limit - 1 := by omega
  have hdrain := drain_eq hrest hm
  change (h.receive (h.player.play h.now)).drain (h.player.play h.now).2 (limit - 1) =
    (h', m) at hdrain
  simp only [run, hdrain]

end Host

namespace Engine

variable {α : Type} [Scalar α] {e : Engine α}

/-- A program has just been loaded, and nothing has been asked since but settings. -/
inductive JustLoaded : Engine α → Prop where
  | loaded {e : Engine α} {r : Request α} (hload : r.isLoad = true)
      (hdone : (e.perform r).2 = .done) : JustLoaded (e.after r)
  | set {e : Engine α} {r : Request α} (h : JustLoaded e) (hsetting : r.isSetting = true) :
      JustLoaded (e.after r)

omit [Scalar α] in
theorem text?_ne_none_of_isLoad {r : Request α} (h : r.isLoad = true) : e.text? r ≠ none := by
  cases r with
  | loadText | loadFile | loadTemplate => simp [text?]
  | _ => cases h

/-- Playback of a program that has just been loaded is ready at the first point. -/
theorem JustLoaded.player (h : e.JustLoaded) : e.player.Sound ∧ e.player.phase = .idle := by
  induction h with
  | @loaded e r hload hdone =>
    have hr := e.responds r
    have htext := text?_ne_none_of_isLoad (e := e) hload
    rw [hdone] at hr
    generalize e.after r = e' at hr ⊢
    generalize hanswer : (Answer.done : Answer α) = answer at hr
    cases hr with
    | loaded => exact ⟨Player.sound_reset _, rfl⟩
    | rejected | missing | refused => cases hanswer
    | operated _ _ _ _ hnone => exact absurd hnone htext
  | @set e r _ hsetting ih =>
    have hr := e.responds r
    have htext := text?_of_isSetting (e := e) hsetting
    generalize e.after r = e', (e.perform r).2 = answer at hr ⊢
    cases hr with
    | loaded _ _ hsome => rw [htext] at hsome; cases hsome
    | rejected _ _ hsome => rw [htext] at hsome; cases hsome
    | missing _ hsome => rw [htext] at hsome; cases hsome
    | refused => exact ih
    | operated op _ _ _ _ hop =>
      exact ⟨ih.1.after op, (Player.phase_after_of_isSetting (hop hsetting)).trans ih.2⟩

end Engine

namespace Player

variable {α : Type} [Scalar α] {p q : Player α} {n : Nat}

theorem Settles.remaining_lt (h : p.Settles q n) : q.remaining < p.remaining := by
  have := h.index_lt
  have := h.index_lt_size
  unfold remaining
  rw [h.sameCourse.trace]
  omega

end Player

theorem RunSummary.length_lines (r : RunSummary Float) : r.lines.length = r.stations.length := by
  simp [lines]

namespace Session

variable {α : Type} [Scalar α] {s : Session α} {rs : List (Host α × Nat)}

/-- What the rounds of a run come to. -/
def summary (s : Session α) (rs : List (Host α × Nat)) : RunSummary α where
  ticks := (rs.map Prod.snd).sum
  halts := rs.countP fun r => r.1.player.phase = .paused
  finished := rs.any fun r => r.1.player.phase = .finished
  lastHalt := rs.getLast?.bind fun r => r.1.player.lastTick.map Report.halt
  stations := rs.filterMap fun r => (s.withHost r.1).station?

/-- The rounds end with the program. -/
structure RunsToEnd (s : Session α) (rs : List (Host α × Nat)) : Prop where
  finished : (s.summary rs).finished = true
  /-- No tick leaves the cursor where it is. -/
  ticks_le : (s.summary rs).ticks ≤ s.engine.player.trace.size - 1
  lastHalt : (s.summary rs).lastHalt = some .programEnd ∨
    (s.summary rs).lastHalt = some .endOfTrace
  /-- There is a status at each halt and one at the end. -/
  stations : (s.summary rs).stations.length = (s.summary rs).halts + 1
  /-- Each halt is further on than the one before. -/
  increasing : (rs.map fun r => r.1.player.index).Pairwise (· < ·)

/-- There was nothing to play. -/
structure StaysPut (s : Session α) (rs : List (Host α × Nat)) : Prop where
  finished : (s.summary rs).finished = false
  ticks : (s.summary rs).ticks = 1
  halts : (s.summary rs).halts = 0
  stations : (s.summary rs).stations.length = if s.engine.player.trace.size = 0 then 0 else 1

/-! ### Runs that reach the end -/

omit [Scalar α] in
theorem station?_isSome_iff : s.station?.isSome = true ↔
    s.engine.player.index < s.engine.player.trace.size := by
  simp only [station?, Engine.status?, Option.isSome_map, Player.current?, Trace.get?]
  simp [Trace.size]

omit [Scalar α] in
theorem length_stations (h : ∀ r ∈ rs, r.1.player.index < r.1.player.trace.size) :
    (s.summary rs).stations.length = rs.length := by
  rw [summary, List.filterMap_length_eq_length]
  exact fun r hr => station?_isSome_iff.2 (h r hr)

theorem runsToEnd {late : Host α → Nat} (hrs : s.host.PlaysOut late rs) : s.RunsToEnd rs := by
  have hticks := hrs.ticks_lt
  have hindex := (List.pairwise_cons.1 hrs.pairwise_index).2
  have hstations := length_stations (s := s) hrs.index_lt_size
  obtain ⟨rs', last, rfl, hpaused, hfinished, hhalt⟩ := hrs.exists_last
  have hcount : rs'.countP (fun r => r.1.player.phase = .paused) = rs'.length := by
    rw [List.countP_eq_length]
    simpa using hpaused
  refine ⟨?_, ?_, ?_, ?_, hindex⟩
  · simp [summary, hfinished]
  · change ((rs' ++ [last]).map Prod.snd).sum ≤ _
    change s.engine.player.index + _ < s.engine.player.trace.size at hticks
    omega
  · simpa [summary] using hhalt
  · rw [hstations]
    simp [summary, hcount, hfinished]

/-! ### The limits of a run -/

omit [Scalar α] in
theorem stations_cons (rs : List (Host α × Nat)) (h : Host α) (n : Nat) :
    (s.summary ((h, n) :: rs)).stations =
      (s.withHost h).station?.toList ++ (s.summary rs).stations := by
  cases hstation : (s.withHost h).station? <;> simp [summary, hstation]

omit [Scalar α] in
theorem summary_singleton {h : Host α} (n : Nat) (hp : h.player.phase ≠ .paused) :
    s.summary [(h, n)] = ⟨n, 0, h.player.phase = .finished, (s.withHost h).lastHalt?,
      (s.withHost h).station?.toList⟩ := by
  have hstations := stations_cons (s := s) [] h n
  simp only [summary, List.filterMap_nil, List.append_nil] at hstations
  rw [summary, hstations]
  simp [hp, lastHalt?, withHost]

omit [Scalar α] in
theorem summary_cons {h : Host α} (n : Nat) (hp : h.player.phase = .paused) (hrs : rs ≠ []) :
    s.summary ((h, n) :: rs) =
      { s.summary rs with
        ticks := n + (s.summary rs).ticks
        halts := (s.summary rs).halts + 1
        stations := (s.withHost h).station?.toList ++ (s.summary rs).stations } := by
  have hstations := stations_cons (s := s) rs h n
  simp only [summary] at hstations
  rw [summary, hstations]
  obtain ⟨r, hr⟩ := Option.ne_none_iff_exists'.1 (mt List.getLast?_eq_none_iff.1 hrs)
  simp [summary, hp, hr, List.getLast?_cons]

theorem playOn_eq {h' : Host α} {n : Nat} (hround : s.host.round (fun _ => 0) = some (h', n))
    (hn : n - 1 ≤ s.engine.player.trace.size - 1) : s.playOn = (s.withHost h', n) := by
  rw [playOn, Host.run_eq hround hn]

theorem playThrough_of_ne_paused {h' : Host α} {n : Nat} (hon : s.playOn = (s.withHost h', n))
    (hp : h'.player.phase ≠ .paused) : s.playThrough.2 = s.summary [(h', n)] := by
  have hp' : (s.withHost h').engine.player.phase ≠ .paused := hp
  rw [playThrough, hon, summary_singleton n hp]
  simp only [hp', false_and, if_false]
  rfl

/-- Playing through comes to what the rounds come to: its limits are not met. -/
theorem playThrough_eq (hrs : s.host.PlaysOut (fun _ => 0) rs) :
    s.playThrough.2 = s.summary rs := by
  obtain ⟨h, hh⟩ : ∃ h, h = s.host := ⟨_, rfl⟩
  rw [← hh] at hrs
  induction hrs generalizing s with
  | @ended _ h' n hround hs hp =>
    subst hh
    have hlimit := Nat.sub_le_sub_right (Nat.le_of_lt hs.ticks_lt_size) 1
    exact playThrough_of_ne_paused (playOn_eq hround hlimit) (by simp [hp])
  | @resumed _ h' n rs hround hs hp hrest ih =>
    subst hh
    have hrec := ih (s := s.withHost h') rfl
    have hlimit := Nat.sub_le_sub_right (Nat.le_of_lt hs.ticks_lt_size) 1
    have hguard : (s.withHost h').engine.player.phase = .paused ∧
        (s.withHost h').engine.player.remaining < s.engine.player.remaining := ⟨hp, hs.remaining_lt⟩
    rw [playThrough, playOn_eq hround hlimit, summary_cons n hp hrest.ne_nil]
    simp only [hguard, and_self, if_true, hrec]
    rfl

/-! ### Nothing to play -/

/-- Fewer than two points are not played: the only round counts a tick and leaves all as it is. -/
theorem round_of_lt_two {h : Host α} (late : Host α → Nat) (hp : h.player.phase = .idle)
    (hsize : h.player.trace.size < 2) :
    h.round late = some ({ h with now := h.now + late h }, 1) := by
  have hplay : h.player.play (h.now + late h) = (h.player, none) := by
    rw [Player.play, if_neg (by simp [hp]), if_pos hsize]
  rw [Host.round_eq_iff]
  refine ⟨0, rfl, ?_⟩
  simp [Host.operate, Player.perform, hplay, Host.receive]

omit [Scalar α] in
theorem staysPut {h : Host α} (hh : h.player = s.engine.player) (hp : h.player.phase = .idle)
    (hi : h.player.index = 0) : s.StaysPut [(h, 1)] := by
  have hne : h.player.phase ≠ .paused := by simp [hp]
  have hsome := station?_isSome_iff (s := s.withHost h)
  change _ ↔ h.player.index < h.player.trace.size at hsome
  rw [hi, hh] at hsome
  constructor
  · simp [summary_singleton 1 hne, hp]
  · rw [summary_singleton 1 hne]
  · rw [summary_singleton 1 hne]
  · rw [summary_singleton 1 hne]
    by_cases hsize : s.engine.player.trace.size = 0
    · have hnone : (s.withHost h).station? = none := by
        rw [← Option.not_isSome_iff_eq_none, hsome]
        omega
      rw [hnone, if_pos hsize]
      rfl
    · obtain ⟨x, hx⟩ := Option.isSome_iff_exists.1 (hsome.2 (by omega))
      rw [hx, if_neg hsize]
      rfl

/-! ### Programs that have just been loaded -/

/-- **A program that has just been loaded is played to its end.**  Whatever the flags and the speed
are set to and however late ticks are handed back: if the trace has at least two points and ticks
have a budget, the rounds of a run come to an end, which is that of the program or of the trace, in
fewer ticks than there are points; there is a status for each halt on the way and one for the end,
and each halt is further on than the one before.  A shorter trace is left alone after one tick is
counted, with a status unless it is empty.  On time, all this is what playing through comes to. -/
theorem completes_of_justLoaded (h : s.engine.JustLoaded)
    (hbudget : 2 ≤ s.engine.player.trace.size → 0.0 < s.engine.player.budget)
    (late : Host α → Nat) :
    ∃ rs, s.host.rounds late = some rs ∧
      (2 ≤ s.engine.player.trace.size → s.RunsToEnd rs) ∧
      (s.engine.player.trace.size < 2 → s.StaysPut rs) ∧
      (late = (fun _ => 0) → s.playThrough.2 = s.summary rs) := by
  obtain ⟨hsound, hp⟩ := h.player
  obtain ⟨hi, -⟩ := hsound.idle hp
  by_cases hsize : s.engine.player.trace.size < 2
  · have hround := round_of_lt_two (h := s.host) late hp hsize
    have hne : s.host.player.phase ≠ .paused := by
      rw [show s.host.player.phase = .idle from hp]
      simp
    refine ⟨[({ s.host with now := s.host.now + late s.host }, 1)], ?_, by omega, fun _ => ?_, ?_⟩
    · rw [Host.rounds, hround]
      simp [hne]
    · exact staysPut rfl hp hi
    · rintro rfl
      exact playThrough_of_ne_paused (playOn_eq hround (by omega)) hne
  · have hready : s.host.player.Ready := by
      refine ⟨hsound, .inl hp, ?_, hbudget (by omega)⟩
      change s.engine.player.index + 1 < s.engine.player.trace.size
      omega
    obtain ⟨rs, hrs⟩ := Host.exists_playsOut late hready
    refine ⟨rs, hrs.rounds_eq, fun _ => runsToEnd hrs, fun h => absurd h hsize, ?_⟩
    rintro rfl
    exact playThrough_eq hrs

/-- A program with a stop on its way, loaded and set to halt at every block. -/
def stopOnTheWay : Engine Float :=
  (((Engine.new .coarse .standard .empty).after
    (.loadText "G0 X30 Z2 F0.2\nG1 Z-10\nM0\nG1 X36\nM30")).after (.setSpeed 5.0)).after
      (.setSingleBlock true)

theorem completes_stopOnTheWay :
    stopOnTheWay.JustLoaded ∧ 0.0 < stopOnTheWay.player.budget ∧
      ∃ rs, (new stopOnTheWay).host.rounds (fun _ => 3) = some rs ∧
        (new stopOnTheWay).RunsToEnd rs ∧
        ((new stopOnTheWay).summary rs).lines.length =
          ((new stopOnTheWay).summary rs).halts + 1 := by
  have h : stopOnTheWay.JustLoaded := .set (.set (.loaded rfl (by decide +kernel)) rfl) rfl
  have hbudget : 0.0 < stopOnTheWay.player.budget := by decide +kernel
  have hsize : 2 ≤ stopOnTheWay.player.trace.size := by decide +kernel
  obtain ⟨rs, hrounds, hruns, -⟩ :=
    completes_of_justLoaded (s := new stopOnTheWay) h (fun _ => hbudget) fun _ => 3
  have hlines := RunSummary.length_lines ((new stopOnTheWay).summary rs)
  exact ⟨h, hbudget, rs, hrounds, hruns hsize, hlines.trans (hruns hsize).stations⟩

end Session

end Lathe
