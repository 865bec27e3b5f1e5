import Lathe.Proofs.Playback.Invariant

/-!
# Stops that playback passes over

Playback is to halt on every stop, program end and block end that its flags ask for.  A tick does:
it halts on the first such point that it reaches.  `Player.play` however steps off the stop that
it is parked on before the first tick runs, and does not ask whether the point it steps onto halts
playback as well.

`Player.passesOver_iff` says that this is the only way in which a call passes over such a point,
and exactly when it does.
-/

namespace Lathe

namespace Player

variable {α : Type} [Scalar α] {p q : Player α} {op : Operation α} {k : Nat}

/-- The cursor from which an operation moves on: the first point where playback restarts. -/
def cursorBefore (p : Player α) : Operation α → Nat
  | .play _ => p.origin
  | _ => p.index

/-- An operation moves the cursor past point `k`, which halts playback. -/
def PassesOver (p : Player α) (op : Operation α) (k : Nat) : Prop :=
  p.cursorBefore op < k ∧ k < (p.after op).index ∧ p.haltAt? k ≠ none

instance : Decidable (p.PassesOver op k) := inferInstanceAs (Decidable (_ ∧ _ ∧ _))

omit [Scalar α] in
theorem Sound.origin_of_playing (h : p.Sound) (hp : p.phase = .playing) : p.origin = p.index :=
  origin_eq_index (by simp [hp]) (h.before_last (.inl hp))

/-- An operation that runs no tick does not move on. -/
theorem Sound.index_after_le (h : p.Sound) (hn : p.ticking? op = none) :
    (p.after op).index ≤ p.cursorBefore op := by
  cases op with
  | load t => exact Nat.zero_le _
  | play now =>
    rw [after_play_of_ticking?_eq_none hn]
    change p.index ≤ p.origin
    by_cases hp : p.phase = .playing
    · exact Nat.le_of_eq (h.origin_of_playing hp).symm
    · have hs : p.trace.size < 2 := by
        by_contra hs
        rw [ticking?_play hp (by omega)] at hn
        cases hn
      have := h.index_lt
      omega
  | fire k now =>
    rw [h.after_fire_of_ticking?_eq_none hn]
    exact le_rfl
  | pause => exact Nat.le_of_eq pause_index
  | reset => exact Nat.zero_le _
  | setSpeed speed =>
    rw [after_setSpeed]
    split_ifs <;> rfl
  | setSingleBlock on => exact le_rfl
  | setOptionalStop on => exact le_rfl

/-- No operation passes over a point ahead of where its tick starts. -/
theorem not_passesOver_of_tickStart_lt (hq : p.ticking? op = some q) (hk : p.tickStart < k) :
    ¬ p.PassesOver op k := by
  rintro ⟨-, hlt, hne⟩
  have ht := ticking_of_ticking?_eq_some hq
  rw [index_after_of_ticking?_eq_some hq] at hlt
  rw [← ht.index] at hk
  exact hne ((ht.sameCourse.haltAt? k).symm.trans (haltAt?_of_lt_advanced hk hlt))

/-- Only starting and resuming can pass over a halt. -/
theorem Sound.isPlay_of_passesOver (h : p.Sound) (hover : p.PassesOver op k) :
    op.isPlay = true := by
  obtain ⟨hk, hlt, -⟩ := id hover
  cases hq : p.ticking? op with
  | none =>
    have := h.index_after_le hq
    omega
  | some q =>
    cases op with
    | play now => rfl
    | fire t now =>
      refine absurd hover (not_passesOver_of_tickStart_lt hq ?_)
      rw [tickStart_of_playing (playing_of_ticking?_fire hq)]
      exact hk
    | _ => cases hq

/-- Resuming can pass over the point next to the stop it steps off, and no other. -/
theorem Sound.of_passesOver_play {now : Nat} (h : p.Sound) (hover : p.PassesOver (.play now) k) :
    p.phase ≠ .playing ∧ p.isParked p.origin = true ∧ k = p.origin + 1 ∧
      k + 1 < p.trace.size ∧ 0.0 < p.budget := by
  obtain ⟨hk, hlt, -⟩ := id hover
  change p.origin < k at hk
  cases hq : p.ticking? (.play now) with
  | none => exact absurd (h.index_after_le hq) (by change ¬ _ ≤ p.origin; omega)
  | some q =>
    have ht := ticking_of_ticking?_eq_some hq
    have hp := not_playing_of_ticking?_play hq
    -- the tick itself passes over nothing, so the point lies at or before where it starts
    have hstart : k ≤ p.departure := by
      rw [← tickStart_of_ne hp]
      by_contra hs
      exact not_passesOver_of_tickStart_lt hq (by omega) hover
    obtain ⟨hpark, rfl⟩ : p.isParked p.origin = true ∧ k = p.origin + 1 := by
      unfold departure at hstart
      split_ifs at hstart with hpark
      · exact ⟨hpark, by omega⟩
      · omega
    have hindex : q.index = p.origin + 1 := by
      rw [ht.index, tickStart_of_ne hp, departure, if_pos hpark]
    rw [index_after_of_ticking?_eq_some hq] at hlt
    have hsize := advanced_lt_size (h.index_lt_of_ticking ht)
    rw [ht.sameCourse.trace] at hsize
    refine ⟨hp, hpark, rfl, by omega, ?_⟩
    by_contra hb
    rw [advanced_eq_index (by rwa [ht.budget]), hindex] at hlt
    omega

/-- It does pass over that point if the first tick moves on. -/
theorem passesOver_play (hp : p.phase ≠ .playing) (hpark : p.isParked p.origin = true)
    (hne : p.haltAt? (p.origin + 1) ≠ none) (hs : p.origin + 1 + 1 < p.trace.size)
    (hb : 0.0 < p.budget) (now : Nat) : p.PassesOver (.play now) (p.origin + 1) := by
  have hq := ticking?_play hp (by omega) now
  have hindex : p.started.index = p.origin + 1 := if_pos hpark
  have hlt : p.started.index < p.started.advanced.1 :=
    index_lt_advanced hb (by rw [hindex]; exact hs)
  refine ⟨Nat.lt_succ_self _, ?_, hne⟩
  rw [index_after_of_ticking?_eq_some hq]
  omega

/-- **Stops that playback passes over.**  An operation passes over a point that halts playback
exactly if it resumes on a stop, that point is the next one and not the last, and the first tick
has a budget. -/
theorem passesOver_iff (h : p.Reachable) :
    p.PassesOver op k ↔
      op.isPlay = true ∧ p.phase ≠ .playing ∧ p.isParked p.origin = true ∧ k = p.origin + 1 ∧
        p.haltAt? k ≠ none ∧ k + 1 < p.trace.size ∧ 0.0 < p.budget := by
  constructor
  · intro hover
    have hop := h.sound.isPlay_of_passesOver hover
    cases op with
    | play now =>
      obtain ⟨hp, hpark, hk, hs, hb⟩ := h.sound.of_passesOver_play hover
      exact ⟨rfl, hp, hpark, hk, hover.2.2, hs, hb⟩
    | _ => cases hop
  · rintro ⟨hop, hp, hpark, rfl, hne, hs, hb⟩
    cases op with
    | play now => exact passesOver_play hp hpark hne hs hb now
    | _ => cases hop

/-- Playback that has halted on the first of the stops of a path. -/
def onFirstStop (stamps : List (Nat × Option AuxCode)) : Player Float :=
  (Player.new 0.4 16 100.0 false false).run [.load (.straight stamps), .play 0]

theorem reachable_onFirstStop (stamps : List (Nat × Option AuxCode)) :
    (onFirstStop stamps).Reachable :=
  (Reachable.new ..).run _

/-- With a plain block after the stop nothing is passed over. -/
theorem passesOver_iff_plain_block :
    (onFirstStop [(1, none), (2, some ⟨0⟩), (3, none), (4, some ⟨0⟩), (5, none)]).Reachable ∧
      ∀ k, ¬ (onFirstStop
        [(1, none), (2, some ⟨0⟩), (3, none), (4, some ⟨0⟩), (5, none)]).PassesOver
          (.play 0) k := by
  refine ⟨reachable_onFirstStop _, fun k hk => ?_⟩
  obtain ⟨-, -, -, rfl, hne, -⟩ := (passesOver_iff (reachable_onFirstStop _)).1 hk
  exact hne (by decide +kernel)

/-- **A stop right after another one is passed over.**  Playback is parked on the first of two
stops; resuming moves it past the second. -/
theorem passesOver_second_stop :
    (onFirstStop [(1, none), (2, some ⟨0⟩), (3, some ⟨0⟩), (4, none), (5, none)]).Reachable ∧
      (onFirstStop [(1, none), (2, some ⟨0⟩), (3, some ⟨0⟩), (4, none), (5, none)]).PassesOver
        (.play 0) 2 :=
  ⟨reachable_onFirstStop _, by decide +kernel⟩

end Player

end Lathe
