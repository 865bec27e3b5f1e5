import Lathe.Engine.Basic
import Lathe.Proofs.Playback.Invariant

/-!
# Requests to an engine

Whoever operates an engine sends it `Request`s in any order: programs to load from three places,
and everything that can be asked of its player except for another trace.  `Engine.Reachable` are
the engines that come out of this.

`Engine.responds` says once what a request can do to an engine: load a program, reject one, find
none or refuse a speed, or operate the player.  Nothing else opens `Engine.perform`.
-/

namespace Lathe

/-- What can be asked of an engine. -/
inductive Request (α : Type) where
  /-- Load a program from its text. -/
  | loadText (text : String)
  /-- Load a program from a file. -/
  | loadFile (storage : Storage) (path : String)
  /-- Load a program from the library. -/
  | loadTemplate (id : String)
  /-- Start or resume. -/
  | play (now : Nat)
  /-- Hand back a tick, live or not. -/
  | fire (tick : Tick) (now : Nat)
  /-- Pause. -/
  | pause
  /-- Go back to the first point. -/
  | reset
  /-- Change the speed. -/
  | setSpeed (speed : α)
  /-- Set the speed from a position of the slider. -/
  | setSlider (raw : Nat)
  /-- Switch single-block mode. -/
  | setSingleBlock (on : Bool)
  /-- Switch optional stops. -/
  | setOptionalStop (on : Bool)

/-- What an engine answers. -/
inductive Answer (α : Type) where
  /-- Nothing to tell. -/
  | done
  /-- The tick to wait for, if there is one. -/
  | tick (tick : Option Tick)
  /-- The speed that the slider has set. -/
  | speed (speed : α)
  /-- No program was loaded. -/
  | failed (error : LoadError α)
  /-- A speed was refused. -/
  | refused (error : SpeedError α)
  deriving DecidableEq, Repr

namespace Request

variable {α : Type}

/-- The request asks for another program. -/
def isLoad : Request α → Bool
  | loadText _ | loadFile _ _ | loadTemplate _ => true
  | _ => false

/-- The request changes the speed or a flag. -/
def isSetting : Request α → Bool
  | setSpeed _ | setSlider _ | setSingleBlock _ | setOptionalStop _ => true
  | _ => false

end Request

namespace Answer

variable {α : Type}

/-- The answer to an attempt at loading. -/
def ofLoad : Option (LoadError α) → Answer α
  | none => done
  | some error => failed error

/-- The request was turned down. -/
def isRefusal : Answer α → Bool
  | failed _ | refused _ => true
  | done | tick _ | speed _ => false

end Answer

namespace Operation

variable {α : Type}

/-- The operation gives the player another trace. -/
def isLoad : Operation α → Bool
  | load _ => true
  | _ => false

/-- The operation changes the speed or a flag. -/
def isSetting : Operation α → Bool
  | setSpeed _ | setSingleBlock _ | setOptionalStop _ => true
  | _ => false

end Operation

namespace Player

variable {α : Type} [Scalar α] {p : Player α} {op : Operation α}

/-- Only loading changes the trace. -/
theorem trace_after (h : p.Sound) (hop : op.isLoad = false) : (p.after op).trace = p.trace := by
  cases hq : p.ticking? op with
  | some q => exact (after_sameCourse_of_ticking?_eq_some hq).trace
  | none =>
    cases op with
    | load t => cases hop
    | play now => rw [after_play_of_ticking?_eq_none hq]
    | fire k now => rw [h.after_fire_of_ticking?_eq_none hq]
    | pause => exact pause_sameCourse.trace
    | reset => rfl
    | setSpeed speed => rw [after_setSpeed]; split_ifs <;> rfl
    | setSingleBlock on => rfl
    | setOptionalStop on => rfl

theorem phase_after_of_isSetting (hop : op.isSetting = true) : (p.after op).phase = p.phase := by
  cases op with
  | setSpeed speed => rw [after_setSpeed]; split_ifs <;> rfl
  | setSingleBlock on => rfl
  | setOptionalStop on => rfl
  | _ => cases hop

end Player

namespace Engine

variable {α : Type} [Scalar α] {e : Engine α}

/-- An attempt at loading, as a request that has been carried out. -/
def answerLoad (r : Engine α × Option (LoadError α)) : Engine α × Answer α := (r.1, .ofLoad r.2)

/-- Carry out a request. -/
def perform (e : Engine α) : Request α → Engine α × Answer α
  | .loadText text => answerLoad (e.loadText text)
  | .loadFile storage path => answerLoad (e.loadFile storage path)
  | .loadTemplate id => answerLoad (e.loadTemplate id)
  | .play now =>
    let r := e.player.play now
    ({ e with player := r.1 }, .tick r.2)
  | .fire k now =>
    let r := e.player.fire k now
    ({ e with player := r.1 }, .tick r.2)
  | .pause => ({ e with player := e.player.pause }, .done)
  | .reset => ({ e with player := e.player.reset }, .done)
  | .setSpeed speed =>
    match e.setSpeed speed with
    | .ok e' => (e', .done)
    | .error error => (e, .refused error)
  | .setSlider raw =>
    match e.setSlider raw with
    | .ok (e', speed) => (e', .speed speed)
    | .error error => (e, .refused error)
  | .setSingleBlock on => ({ e with player := e.player.setSingleBlock on }, .done)
  | .setOptionalStop on => ({ e with player := e.player.setOptionalStop on }, .done)

/-- The engine after a request. -/
def after (e : Engine α) (r : Request α) : Engine α := (e.perform r).1

/-- The engines that requests can lead to. -/
inductive Reachable : Engine α → Prop where
  | new (tuning : Tuning α) (playback : PlaybackSettings α) (templates : Templates) :
      Reachable (.new tuning playback templates)
  | after {e : Engine α} (r : Request α) : Reachable e → Reachable (e.after r)

/-! ### What a request can do -/

/-- The text that a request asks to load, if it can be found; none if it asks for something else. -/
def text? (e : Engine α) : Request α → Option (Except (LoadError α) String)
  | .loadText text => some (.ok text)
  | .loadFile storage path => some ((storage.read path).mapError .storage)
  | .loadTemplate id => some ((e.templates.get id).mapError .template)
  | _ => none

/-- An engine may be brought to another one by a request, with an answer. -/
inductive Responds (e : Engine α) (r : Request α) : Engine α → Answer α → Prop where
  /-- The text is a program, which takes the place of the one before. -/
  | loaded (text : String) (trace : Trace α) (htext : e.text? r = some (.ok text))
      (htrace : (Source.ofText text).trace e.tuning = .ok trace) :
      Responds e r { e with source := .ofText text, player := e.player.pause.load trace } .done
  /-- The text cannot be read as a program. -/
  | rejected (text : String) (error : ReadError α) (htext : e.text? r = some (.ok text))
      (herror : (Source.ofText text).trace e.tuning = .error error) :
      Responds e r { e with player := e.player.pause } (.failed (.program error))
  /-- There is no text. -/
  | missing (error : LoadError α) (htext : e.text? r = some (.error error))
      (hkind : error.isProgram = false) : Responds e r e (.failed error)
  /-- The speed is not above zero and finite. -/
  | refused (speed : α) (hsetting : r.isSetting = true) (hspeed : Scalar.isPositive speed = false) :
      Responds e r e (.refused (.invalid speed))
  /-- The player does what it is asked to, and has no other trace afterwards. -/
  | operated (op : Operation α) (answer : Answer α) (hop : op.isLoad = false)
      (hanswer : answer.isRefusal = false) (htext : e.text? r = none)
      (hsetting : r.isSetting = true → op.isSetting = true) :
      Responds e r { e with player := e.player.after op } answer

omit [Scalar α] in
theorem text?_of_isSetting {r : Request α} (h : r.isSetting = true) : e.text? r = none := by
  cases r with
  | setSpeed | setSlider | setSingleBlock | setOptionalStop => rfl
  | _ => cases h

theorem loadText_of_ok {text : String} {trace : Trace α}
    (h : (Source.ofText text).trace e.tuning = .ok trace) :
    e.loadText text =
      ({ e with source := .ofText text, player := e.player.pause.load trace }, none) := by
  simp only [loadText, h]

theorem loadText_of_error {text : String} {error : ReadError α}
    (h : (Source.ofText text).trace e.tuning = .error error) :
    e.loadText text = ({ e with player := e.player.pause }, some (.program error)) := by
  simp only [loadText, h]

/-- A text that was found is loaded in one way, wherever it comes from. -/
theorem responds_loadText {r : Request α} {text : String} (htext : e.text? r = some (.ok text)) :
    e.Responds r (e.loadText text).1 (.ofLoad (e.loadText text).2) := by
  cases htrace : (Source.ofText text).trace e.tuning with
  | ok trace =>
    rw [loadText_of_ok htrace]
    exact .loaded text trace htext htrace
  | error error =>
    rw [loadText_of_error htrace]
    exact .rejected text error htext htrace

theorem responds_setSpeed (e : Engine α) {r : Request α} (speed : α) (answer : Answer α)
    (hsetting : r.isSetting = true) (hanswer : answer.isRefusal = false) :
    (∃ p, e.player.setSpeed speed = .ok p ∧ e.Responds r { e with player := p } answer) ∨
      (e.player.setSpeed speed = .error (.invalid speed) ∧
        e.Responds r e (.refused (.invalid speed))) := by
  by_cases hspeed : Scalar.isPositive speed = true
  · have hafter : e.player.after (.setSpeed speed) = { e.player with speed := speed } := by
      rw [Player.after_setSpeed, if_pos hspeed]
    refine .inl ⟨_, if_pos hspeed, ?_⟩
    rw [← hafter]
    exact .operated (.setSpeed speed) answer rfl hanswer (text?_of_isSetting hsetting) fun _ => rfl
  · exact .inr ⟨if_neg hspeed, .refused speed hsetting (by simpa using hspeed)⟩

/-- **What a request can do.** -/
theorem responds (e : Engine α) (r : Request α) : e.Responds r (e.after r) (e.perform r).2 := by
  cases r with
  | loadText text => exact responds_loadText rfl
  | loadFile storage path =>
    simp only [after, perform, answerLoad, loadFile]
    cases hread : storage.read path with
    | ok text => exact responds_loadText (by simp [text?, hread, Except.mapError])
    | error error => exact .missing _ (by simp [text?, hread, Except.mapError]) rfl
  | loadTemplate id =>
    simp only [after, perform, answerLoad, loadTemplate]
    cases hget : e.templates.get id with
    | ok text => exact responds_loadText (by simp [text?, hget, Except.mapError])
    | error error => exact .missing _ (by simp [text?, hget, Except.mapError]) rfl
  | play now => exact .operated (.play now) _ rfl rfl rfl nofun
  | fire k now => exact .operated (.fire k now) _ rfl rfl rfl nofun
  | pause => exact .operated .pause _ rfl rfl rfl nofun
  | reset => exact .operated .reset _ rfl rfl rfl nofun
  | setSpeed speed =>
    simp only [after, perform, Engine.setSpeed]
    have hset : (Request.setSpeed speed).isSetting = true := rfl
    obtain ⟨p, hp, h⟩ | ⟨hp, h⟩ := e.responds_setSpeed speed .done hset rfl
    · rw [hp]; exact h
    · rw [hp]; exact h
  | setSlider raw =>
    simp only [after, perform, setSlider, Engine.setSpeed]
    have hset : (Request.setSlider raw : Request α).isSetting = true := rfl
    obtain ⟨p, hp, h⟩ | ⟨hp, h⟩ :=
      e.responds_setSpeed (e.curve.speedAt raw) (.speed (e.curve.speedAt raw)) hset rfl
    · rw [hp]; exact h
    · rw [hp]; exact h
  | setSingleBlock on => exact .operated (.setSingleBlock on) _ rfl rfl rfl fun _ => rfl
  | setOptionalStop on => exact .operated (.setOptionalStop on) _ rfl rfl rfl fun _ => rfl

/-! ### The player of an engine -/

/-- The player of an engine is driven by operations, also while programs are loaded. -/
theorem Reachable.player (h : e.Reachable) : e.player.Reachable := by
  induction h with
  | new tuning playback templates => exact .new ..
  | @after e r _ ih =>
    have hr := e.responds r
    generalize e.after r = e', (e.perform r).2 = answer at hr
    cases hr with
    | loaded text trace => exact (ih.after .pause).after (.load trace)
    | rejected => exact ih.after .pause
    | missing | refused => exact ih
    | operated op => exact ih.after op

end Engine

end Lathe
