import Lathe.Proofs.Engine.Request
import Lathe.Proofs.Motion.Order
import Lathe.Proofs.Playback.Delivery

/-!
# Requests that fail

A request that is turned down leaves the engine as it was, with one exception: playback is paused
before a text is read, so a text that is no program stops running playback.  The tick that was
armed is taken back then, and since ticks are never given out twice, no tick from before is run
any more, whatever is asked later (`Engine.StandsDown`).

`Engine.failsSafely_of_reachable` says this of all requests, and which of them fail.
-/

namespace Lathe

namespace Player

variable {α : Type} [Scalar α] {p : Player α} {k : Tick}

omit [Scalar α] in
theorem pause_eq : p.pause =
    { p with
      timer := p.timer.cancel
      phase := if p.phase = .playing then .paused else p.phase
      mode := if p.phase = .playing then .paused else p.mode } := by
  unfold pause
  split_ifs with hp
  · rfl
  · rfl

omit [Scalar α] in
/-- No tick that was given out before a pause is run after it. -/
theorem spent_pause {id : Nat} (hid : id < p.timer.nextId) : p.pause.Spent id := by
  rw [pause_eq]
  refine ⟨hid, fun k hk => ?_⟩
  cases hk

theorem Spent.fire (hs : p.Spent k.id) (now : Nat) : p.fire k now = (p, none) := by
  have hlive : ¬ p.timer.isLive k = true := by
    rw [Timer.isLive_iff]
    rintro ⟨a, ha, hid⟩
    exact hs.ne a ha hid
  rw [Player.fire, if_neg hlive]

end Player

namespace Engine

variable {α : Type} [Scalar α] {e : Engine α}

/-- The engine after a sequence of requests. -/
def run (e : Engine α) (rs : List (Request α)) : Engine α := rs.foldl after e

/-- An engine goes over into another one in which nothing has changed but that playback does not
run any more. -/
structure StandsDown (e e' : Engine α) : Prop where
  /-- All but the player is as it was, the program above all. -/
  rest : e' = { e with player := e'.player }
  trace : e'.player.trace = e.player.trace
  index : e'.player.index = e.player.index
  lastBlock : e'.player.lastBlock = e.player.lastBlock
  lastTick : e'.player.lastTick = e.player.lastTick
  speed : e'.player.speed = e.player.speed
  singleBlock : e'.player.singleBlock = e.player.singleBlock
  optionalStop : e'.player.optionalStop = e.player.optionalStop
  /-- Playback that was running is paused. -/
  phase : e'.player.phase = if e.player.phase = .playing then .paused else e.player.phase
  mode : e'.player.mode = if e.player.phase = .playing then .paused else e.player.mode
  /-- No tick is armed. -/
  armed : e'.player.timer.armed = none
  /-- Whatever is asked next, a tick from before is stale. -/
  stale : ∀ (rs : List (Request α)) (k : Tick) (now : Nat), k.id < e.player.timer.nextId →
    (e'.run rs).perform (.fire k now) = (e'.run rs, .tick none)

/-- What becomes of an engine whose request fails, and when a request does. -/
structure FailsSafely (e : Engine α) (r : Request α) (e' : Engine α) (answer : Answer α) :
    Prop where
  /-- A request fails if there is no text to load or the text is no program. -/
  failed_iff : ∀ error, answer = .failed error ↔
    e.text? r = some (.error error) ∨ ∃ text fault, e.text? r = some (.ok text) ∧
      (Source.ofText text).trace e.tuning = .error fault ∧ error = .program fault
  /-- A text that is no program stops running playback and changes nothing else. -/
  program : ∀ fault, answer = .failed (.program fault) → e.StandsDown e'
  /-- A text that is not there changes nothing. -/
  missing : ∀ error, answer = .failed error → error.isProgram = false → e' = e
  /-- Nor does a speed that is refused. -/
  refused : ∀ error, answer = .refused error → e' = e

/-! ### Ticks that stay stale -/

theorem spent_after {id : Nat} (hs : e.player.Spent id) (h : e.player.Sound) (r : Request α) :
    (e.after r).player.Spent id ∧ (e.after r).player.Sound := by
  have hr := e.responds r
  generalize e.after r = e', (e.perform r).2 = answer at hr ⊢
  cases hr with
  | loaded text trace =>
    exact ⟨(hs.after h .pause).after (h.after .pause) (.load trace),
      (h.after .pause).after (.load trace)⟩
  | rejected => exact ⟨hs.after h .pause, h.after .pause⟩
  | missing | refused => exact ⟨hs, h⟩
  | operated op => exact ⟨hs.after h op, h.after op⟩

theorem spent_run {id : Nat} (hs : e.player.Spent id) (h : e.player.Sound)
    (rs : List (Request α)) : (e.run rs).player.Spent id := by
  induction rs generalizing e with
  | nil => exact hs
  | cons r rs ih =>
    obtain ⟨hs', h'⟩ := spent_after hs h r
    exact ih hs' h'

/-! ### Requests that are turned down -/

theorem standsDown_pause (h : e.player.Sound) :
    e.StandsDown { e with player := e.player.pause } := by
  have hstale : ∀ (rs : List (Request α)) (k : Tick) (now : Nat), k.id < e.player.timer.nextId →
      (Engine.run { e with player := e.player.pause } rs).perform (.fire k now) =
        (Engine.run { e with player := e.player.pause } rs, .tick none) := by
    intro rs k now hk
    have hspent := Player.spent_pause hk
    have hs := spent_run (e := { e with player := e.player.pause }) hspent h.pause rs
    rw [perform, hs.fire]
  rw [Player.pause_eq] at hstale ⊢
  exact ⟨rfl, rfl, rfl, rfl, rfl, rfl, rfl, rfl, rfl, rfl, rfl, hstale⟩

theorem Responds.failsSafely {r : Request α} {e' : Engine α} {answer : Answer α}
    (hr : e.Responds r e' answer) (h : e.player.Sound) : e.FailsSafely r e' answer := by
  cases hr with
  | loaded text trace htext htrace =>
    refine ⟨fun error => ?_, nofun, nofun, nofun⟩
    simp [htext, htrace]
  | rejected text fault htext herror =>
    refine ⟨fun error => ?_, fun _ _ => standsDown_pause h, ?_, nofun⟩
    · simp [htext, herror, eq_comm]
    · rintro error ⟨⟩ hkind
      cases hkind
  | missing error htext hkind =>
    refine ⟨fun error' => ?_, ?_, fun _ _ _ => rfl, nofun⟩
    · simp [htext]
    · rintro fault ⟨⟩
      cases hkind
  | refused speed hsetting =>
    refine ⟨fun error => ?_, nofun, nofun, fun _ _ => rfl⟩
    simp [text?_of_isSetting hsetting]
  | operated op answer hop hanswer htext =>
    have hfailed : ∀ error, answer ≠ .failed error := by
      rintro error rfl
      cases hanswer
    have hrefused : ∀ error, answer ≠ .refused error := by
      rintro error rfl
      cases hanswer
    refine ⟨fun error => ?_, fun _ hf => absurd hf (hfailed _), fun _ hf => absurd hf (hfailed _),
      fun _ hf => absurd hf (hrefused _)⟩
    simp [htext, hfailed error]

/-- **Requests that fail leave the engine as it was.**  A text that cannot be read as a program,
from wherever it comes, stops running playback: the program, its trace, the cursor, the last block
and tick, the speed and the flags stay, playback is paused if it was running, no tick is armed, and
none from before is ever run again.  An unknown template, a file that cannot be read and a speed
that is out of range change nothing at all, and leave an armed tick armed. -/
theorem failsSafely_of_reachable (h : e.Reachable) (r : Request α) :
    e.FailsSafely r (e.after r) (e.perform r).2 :=
  (e.responds r).failsSafely h.player.sound

/-- Playback runs along the second of three lines. -/
def midway : Engine Float :=
  (((Engine.new .coarse .standard .empty).after
    (.loadText "G0 X30 Z2 F0.2\nG1 Z-10\nM30")).after (.setSpeed 5.0)).after (.play 0)

theorem failsSafely_midway :
    midway.Reachable ∧ midway.player.timer.armed.isSome = true ∧
      midway.StandsDown (midway.after (.loadText "G0 X1.2.3")) ∧
      midway.after (.loadTemplate "bar") = midway ∧ midway.after (.setSpeed 0.0) = midway := by
  have hr : midway.Reachable := .after _ (.after _ (.after _ (.new ..)))
  have hbad : (midway.perform (.loadText "G0 X1.2.3")).2 =
      .failed (.program ⟨0, .malformedNumber .x "1.2.3"⟩) := by decide +kernel
  have hnone : (midway.perform (.loadTemplate "bar")).2 =
      .failed (.template (.notFound "bar")) := by decide +kernel
  have hslow : (midway.perform (.setSpeed 0.0)).2 = .refused (.invalid 0.0) := by decide +kernel
  exact ⟨hr, by decide +kernel, (failsSafely_of_reachable hr _).program _ hbad,
    (failsSafely_of_reachable hr _).missing _ hnone rfl,
    (failsSafely_of_reachable hr _).refused _ hslow⟩

end Engine

end Lathe
