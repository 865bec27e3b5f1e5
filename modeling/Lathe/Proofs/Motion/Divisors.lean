import Lathe.Motion.Subdivision
import Lathe.Proofs.Motion.Visits

/-!
# What interpretation divides by

Every rule that divides has beside it here the list of its divisors, each with the site of the
division: what `Arc.polyline` divides by is in `Arc.divisions`, and so on up to `Program.divisions`
for the whole interpretation of a program.

Nothing is missing from these lists.  Over scalars with another division, which is the same for the
divisors that are listed, a program has the same trace (`Program.trace_withDiv`).
-/

namespace Lathe

/-- Where a division is made. -/
inductive DivisionSite where
  /-- A diameter or the middle of two places is halved. -/
  | half
  /-- The direction across a chord. -/
  | chord
  /-- The steps of an arc are counted. -/
  | angleStep
  /-- A part of the sweep of an arc is taken. -/
  | sweepPart
  /-- The passes of a roughing cycle are counted. -/
  | passDepth
  /-- A contour is interpolated. -/
  | span
  /-- The parts of a long move are counted. -/
  | maxStep
  /-- A part of a long move is taken. -/
  | movePart
  deriving DecidableEq, Repr

/-- A division, by what it divides by. -/
structure Division (α : Type) where
  /-- Where it is made. -/
  site : DivisionSite
  /-- The divisor. -/
  divisor : α

/-! ### Divisors -/

variable {α : Type} [Scalar α]

namespace Arc

/-- How far two places are apart in radial coordinates. -/
def chord (a b : Position α) : α :=
  let dr := b.x / 2.0 - a.x / 2.0
  let dz := b.z - a.z
  Scalar.sqrt (dr * dr + dz * dz)

/-- The divisions made to follow an arc.  It is halved in any case; the others are made only where
there is an arc to solve. -/
def divisions (s : ArcSettings α) (a b : Position α) (radius : α) (rotation : Rotation) :
    List (Division α) :=
  ⟨.half, 2.0⟩ :: match solve? s a b radius rotation with
    | none => []
    | some g => ⟨.chord, chord a b⟩ :: ⟨.angleStep, s.maxAngleStep⟩ ::
        (List.range' 1 (stepCount s g.sweep - 1)).map fun _ =>
          ⟨.sweepPart, Scalar.ofNat (stepCount s g.sweep)⟩

end Arc

namespace Contour

/-- The divisions made to find the points that lead to a place under a motion. -/
def pathDivisions (s : ArcSettings α) (motion : Motion) (a b : Position α) (radius : α) :
    List (Division α) :=
  match motion.rotation? with
  | some rotation => Arc.divisions s a b radius rotation
  | none => []

/-- The divisions made on one line of a contour. -/
def Tracing.divisions (s : ArcSettings α) (t : Tracing α) (l : Line α) : List (Division α) :=
  if l.hasAxis && t.started && !t.position.isNear (t.target l) then
    pathDivisions s (t.motionOn l) t.position (t.target l) ((l.value? .r).getD 0.0)
  else []

/-- The divisions made on lines that are walked one after another. -/
def divisionsOfLines (s : ArcSettings α) (t : Tracing α) : List (Line α × Nat) → List (Division α)
  | [] => []
  | (l, i) :: rest => t.divisions s l ++ divisionsOfLines s (t.step s l i).1 rest

/-- The divisions made to find a contour. -/
def divisions (s : ArcSettings α) (p : Program α) (first last : Nat) : List (Division α) :=
  match resolve p first, resolve p last with
  | .ok a, .ok b => divisionsOfLines s .initial (linesBetween p a b)
  | _, _ => []

end Contour

namespace Roughing

/-- The segment brackets the diameter and is steep enough to tell where it has it. -/
def tells (tolerance target : α) (ab : ContourPoint α × ContourPoint α) : Bool :=
  decide ((ab.1.x - target) * (ab.2.x - target) ≤ 0.0 ∧
    tolerance < Scalar.abs (ab.2.x - ab.1.x))

/-- The division made to find where a contour has a diameter: the first segment that tells is
interpolated. -/
def spanDivisions (tolerance target : α) (contour : List (ContourPoint α)) : List (Division α) :=
  ((segments contour).find? (tells tolerance target)).toList.map fun ab =>
    ⟨.span, ab.2.x - ab.1.x⟩

/-- The divisions made to expand a roughing cycle. -/
def divisions (c : Roughing α) (s : CycleSettings α) (contour : List (ContourPoint α)) :
    List (Division α) :=
  ⟨.passDepth, 2.0 * c.cut.depth⟩ :: (List.range' 1 (c.passCount contour)).flatMap fun i =>
    spanDivisions s.interpolationTolerance
      (c.passDiameter contour i - Scalar.abs c.allowanceX) contour

end Roughing

namespace Walk

/-- The divisions made to find the contour that a cycle names. -/
def contourDivisions (t : Tuning α) (p : Program α) (l : Line α) : List (Division α) :=
  match l.cycleLabels with
  | .ok (first, last) => Contour.divisions t.arc p first last
  | .error _ => []

/-- The divisions made to expand a roughing cycle, if its contour has two points at least. -/
def roughDivisions (t : Tuning α) (m : Modal α) (l : Line α) :
    List (ContourPoint α) → List (Division α)
  | a :: b :: rest => (roughing t m l).divisions t.cycle (a :: b :: rest)
  | _ => []

/-- The divisions made for a move. -/
def moveDivisions (t : Tuning α) (m : Modal α) (l : Line α) : List (Division α) :=
  if m.position.isNear (m.target l) then []
  else Contour.pathDivisions t.arc m.motion m.position (m.target l) ((l.value? .r).getD 0.0)

/-- The divisions made on a line. -/
def divisionsOn (t : Tuning α) (p : Program α) (s : State α) (l : Line α) : List (Division α) :=
  if s.started then
    match l.action with
    | .rough => contourDivisions t p l ++
        ((contour? t p l).map (roughDivisions t (s.modal.withModesOf l) l)).getD []
    | .finish => contourDivisions t p l
    | .move => moveDivisions t (s.modal.withModesOf l) l
    | _ => []
  else []

end Walk

namespace Subdivision

/-- The divisions made to cut a move. -/
def cutDivisions (limit : α) (a b : Point α) : List (Division α) :=
  if limit < a.distance b then
    ⟨.maxStep, limit⟩ :: (List.range' 1 (Scalar.ceil (a.distance b / limit) - 1)).map fun _ =>
      ⟨.movePart, Scalar.ofNat (Scalar.ceil (a.distance b / limit))⟩
  else []

/-- The divisions made to cut the long moves of a path. -/
def divisions (limit : α) (path : List (Point α)) : List (Division α) :=
  if Scalar.isPositive limit then
    (path.zip path.tail).flatMap fun (a, b) => cutDivisions limit a b
  else []

end Subdivision

/-- The divisions made to interpret a program. -/
def Program.divisions (t : Tuning α) (p : Program α) : List (Division α) :=
  ((Walk.visits t p).flatMap fun v => Walk.divisionsOn t p v.before v.line) ++
    Subdivision.divisions t.maxStep (Walk.points t p)

/-! ### Another division -/

/-- The same scalars with another division. -/
@[reducible] def Scalar.withDiv {β : Type} [s : Scalar β] (d : β → β → β) : Scalar β :=
  { s with toDiv := ⟨d⟩ }

theorem Scalar.div_withDiv (d : α → α → α) (a b : α) :
    @HDiv.hDiv α α α (@instHDiv α (@Scalar.instDiv α (.withDiv d))) a b = d a b := rfl

namespace Division

variable {d : α → α → α} {x : Division α} {xs ys : List (Division α)}

/-- The other division is the same for the listed divisors. -/
def Agrees (d : α → α → α) (xs : List (Division α)) : Prop :=
  ∀ x ∈ xs, ∀ a, d a x.divisor = a / x.divisor

theorem agrees_cons :
    Agrees d (x :: xs) ↔ (∀ a, d a x.divisor = a / x.divisor) ∧ Agrees d xs :=
  List.forall_mem_cons

theorem agrees_append : Agrees d (xs ++ ys) ↔ Agrees d xs ∧ Agrees d ys :=
  List.forall_mem_append

theorem Agrees.of_mem_flatMap {β : Type} {bs : List β} {f : β → List (Division α)} {b : β}
    (h : Agrees d (bs.flatMap f)) (hb : b ∈ bs) : Agrees d (f b) :=
  fun x hx => h x (List.mem_flatMap.2 ⟨b, hb, hx⟩)

end Division

open Division

variable {d : α → α → α}

namespace Arc

variable {s : ArcSettings α} {a b : Position α} {radius : α} {rotation : Rotation}

theorem chord_withDiv (hhalf : ∀ a, d a 2.0 = a / 2.0) : @chord α (.withDiv d) a b = chord a b := by
  unfold chord
  simp only [Scalar.div_withDiv d, hhalf]
  rfl

theorem solve?_withDiv (h : Agrees d (divisions s a b radius rotation)) :
    @solve? α (.withDiv d) s a b radius rotation = solve? s a b radius rotation := by
  have hhalf : ∀ a, d a 2.0 = a / 2.0 := h ⟨.half, 2.0⟩ List.mem_cons_self
  cases hg : solve? s a b radius rotation with
  | none =>
    -- no division by the chord is listed, and none is made: the guard comes first
    unfold solve? at hg ⊢
    simp only [Scalar.div_withDiv d, hhalf]
    refine if_pos ?_
    by_contra hguard
    cases (if_neg hguard).symm.trans hg
  | some g =>
    have hchord : ∀ x, d x (chord a b) = x / chord a b := by
      refine h ⟨.chord, chord a b⟩ ?_
      rw [divisions, hg]
      exact List.mem_cons_of_mem _ List.mem_cons_self
    rw [← chord_withDiv hhalf] at hchord
    rw [← hg]
    unfold solve?
    unfold chord at hchord
    simp only [Scalar.div_withDiv d, hhalf] at hchord ⊢
    simp only [hchord]
    rfl

theorem stepCount_withDiv {sweep : α} (h : ∀ a, d a s.maxAngleStep = a / s.maxAngleStep) :
    @stepCount α (.withDiv d) s sweep = stepCount s sweep :=
  congrArg (fun steps => Nat.max (Nat.max (Nat.min countLimit (Scalar.ceil steps))
    s.minPoints.toNat) 1) (h _)

theorem interior_withDiv {g : Arc α} {n : ℕ}
    (h : Agrees d ((List.range' 1 (n - 1)).map fun _ => ⟨.sweepPart, Scalar.ofNat n⟩)) :
    @interior α (.withDiv d) g n = g.interior n := by
  refine List.map_congr_left fun i hi => ?_
  exact congrArg (fun part => g.pointAt (g.startAngle + g.sweep * part))
    (h ⟨.sweepPart, Scalar.ofNat n⟩ (List.mem_map.2 ⟨i, hi, rfl⟩) _)

theorem polyline_withDiv (h : Agrees d (divisions s a b radius rotation)) :
    @polyline α (.withDiv d) s a b radius rotation = polyline s a b radius rotation := by
  unfold polyline
  rw [solve?_withDiv h]
  cases hg : solve? s a b radius rotation with
  | none => rfl
  | some g =>
    rw [divisions, hg] at h
    simp only [agrees_cons] at h
    obtain ⟨-, -, hstep, hparts⟩ := h
    dsimp only
    rw [stepCount_withDiv hstep, interior_withDiv hparts]

end Arc

namespace Contour

variable {s : ArcSettings α} {p : Program α}

theorem Tracing.pathTo_withDiv {motion : Motion} {a b : Position α} {radius : α}
    (h : Agrees d (pathDivisions s motion a b radius)) :
    @pathTo α (.withDiv d) s motion a b radius = pathTo s motion a b radius := by
  unfold pathTo
  unfold pathDivisions at h
  cases hrotation : motion.rotation? with
  | none => rfl
  | some rotation =>
    rw [hrotation] at h
    exact congrArg (List.drop 1) (Arc.polyline_withDiv h)

theorem Tracing.step_withDiv {t : Tracing α} {l : Line α} {index : ℕ}
    (h : Agrees d (t.divisions s l)) :
    @step α (.withDiv d) s t l index = t.step s l index := by
  unfold step
  refine ite_congr rfl (fun haxis => ?_) fun _ => rfl
  refine ite_congr rfl (fun hstarted => ?_) fun _ => rfl
  refine ite_congr rfl (fun _ => rfl) fun hnear => ?_
  have hpath := pathTo_withDiv (by
    simpa only [divisions, haxis, hstarted, hnear, Bool.not_false, Bool.and_self, if_true] using h)
  exact congrArg (fun path : List (Position α) => (Tracing.mk (t.target l) (t.motionOn l) true,
    path.map fun p => ContourPoint.mk p (t.motionOn l).kind index)) hpath

theorem ofLines_withDiv {t : Tracing α} {lines : List (Line α × ℕ)}
    (h : Agrees d (divisionsOfLines s t lines)) :
    @ofLines α (.withDiv d) s t lines = ofLines s t lines := by
  induction lines generalizing t with
  | nil => rfl
  | cons li rest ih =>
    obtain ⟨hfirst, hrest⟩ := agrees_append.1 h
    unfold ofLines
    rw [Tracing.step_withDiv hfirst]
    exact congrArg ((t.step s li.1 li.2).2 ++ ·) (ih hrest)

theorem between_withDiv {first last : ℕ} (h : Agrees d (divisions s p first last)) :
    @between α (.withDiv d) s p first last = between s p first last := by
  unfold divisions at h
  change (resolve p first >>= fun a => resolve p last >>= fun b =>
    pure (@ofLines α (.withDiv d) s .initial (linesBetween p a b))) = _
  unfold between
  cases ha : resolve p first with
  | error e => rfl
  | ok a =>
    cases hb : resolve p last with
    | error e => rfl
    | ok b =>
      rw [ha, hb] at h
      exact congrArg Except.ok (ofLines_withDiv h)

end Contour

namespace Roughing

variable {c : Roughing α} {s : CycleSettings α} {contour : List (ContourPoint α)}
  {stamp : CycleLine} {tolerance target : α}

theorem passCount_withDiv (h : ∀ a, d a (2.0 * c.cut.depth) = a / (2.0 * c.cut.depth)) :
    @passCount α (.withDiv d) c contour = c.passCount contour :=
  congrArg (fun ratio => if Scalar.isFinite ratio then
    Nat.max 1 (Nat.min passLimit (Scalar.ceil ratio)) else 1) (h _)

theorem crossing?_withDiv {a b : ContourPoint α}
    (h : tells tolerance target (a, b) → ∀ x, d x (b.x - a.x) = x / (b.x - a.x)) :
    @crossing? α (.withDiv d) tolerance target a b = crossing? tolerance target a b := by
  unfold crossing?
  refine ite_congr rfl (fun htells => ?_) fun _ => rfl
  exact congrArg (fun part => some (a.z + part * (b.z - a.z))) (h (decide_eq_true htells) _)

theorem firstCrossing?_withDiv (h : Agrees d (spanDivisions tolerance target contour)) :
    @firstCrossing? α (.withDiv d) tolerance target contour =
      firstCrossing? tolerance target contour := by
  unfold spanDivisions at h
  unfold firstCrossing?
  generalize segments contour = abs at h ⊢
  induction abs with
  | nil => rfl
  | cons ab rest ih =>
    rw [List.findSome?_cons, List.findSome?_cons]
    by_cases htells : tells tolerance target ab
    · -- the search ends here, by the one division that is listed
      rw [List.find?_cons_of_pos htells] at h
      have hspan : ∀ x, d x (ab.2.x - ab.1.x) = x / (ab.2.x - ab.1.x) :=
        h ⟨.span, ab.2.x - ab.1.x⟩ (List.mem_singleton_self _)
      dsimp only
      rw [crossing?_withDiv fun _ => hspan, crossing?, if_pos (of_decide_eq_true htells)]
    · rw [List.find?_cons_of_neg htells] at h
      dsimp only
      rw [crossing?_withDiv fun htells' => absurd htells' htells, ih h]

theorem depthAt_withDiv {faceZ : α} (h : Agrees d (spanDivisions tolerance target contour)) :
    @depthAt α (.withDiv d) tolerance contour faceZ target =
      depthAt tolerance contour faceZ target := by
  unfold depthAt
  rw [firstCrossing?_withDiv h]
  rfl

theorem stop_withDiv {diameter : α} (h : Agrees d
      (spanDivisions s.interpolationTolerance (diameter - Scalar.abs c.allowanceX) contour)) :
    @stop α (.withDiv d) c s contour diameter = c.stop s contour diameter := by
  cases contour with
  | nil => rfl
  | cons first rest =>
    exact congrArg (fun z => z + Scalar.abs c.allowanceZ) (depthAt_withDiv h)

theorem pass_withDiv {faceZ : α} {i : ℕ} (h : Agrees d (spanDivisions s.interpolationTolerance
      (c.passDiameter contour i - Scalar.abs c.allowanceX) contour)) :
    @pass α (.withDiv d) c s contour faceZ stamp i = c.pass s contour faceZ stamp i :=
  congrArg (fun stop => if faceZ - s.faceTolerance ≤ stop then [] else
    c.passPoints stamp (stamp.block + i) (c.passDiameter contour i) stop) (stop_withDiv h)

theorem expand_withDiv (h : Agrees d (c.divisions s contour)) :
    @expand α (.withDiv d) c s contour stamp = c.expand s contour stamp := by
  obtain ⟨hdepth, hspans⟩ := agrees_cons.1 h
  cases contour with
  | nil => rfl
  | cons first rest =>
    have hpasses : (List.range' 1 (c.passCount (first :: rest))).flatMap
        (@pass α (.withDiv d) c s (first :: rest) first.z stamp) =
          (List.range' 1 (c.passCount (first :: rest))).flatMap
            (c.pass s (first :: rest) first.z stamp) :=
      List.flatMap_congr fun i hi => pass_withDiv (hspans.of_mem_flatMap hi)
    unfold expand
    rw [passCount_withDiv hdepth]
    dsimp only
    rw [hpasses]
    rfl

end Roughing

namespace Finishing

variable {c : Finishing α} {stamp : CycleLine} {contour : List (ContourPoint α)}

theorem cuts_withDiv {line block : ℕ} :
    @cuts α (.withDiv d) c stamp line block contour = c.cuts stamp line block contour := by
  induction contour generalizing line block with
  | nil => rfl
  | cons p rest ih =>
    unfold cuts
    dsimp only
    rw [ih]
    rfl

/-- A finishing cycle divides by nothing. -/
theorem expand_withDiv : @expand α (.withDiv d) c contour stamp = c.expand contour stamp := by
  cases contour with
  | nil => rfl
  | cons first rest =>
    unfold expand
    dsimp only
    rw [cuts_withDiv]
    rfl

end Finishing

namespace Walk

variable {t : Tuning α} {p : Program α} {s : State α} {l : Line α} {index : ℕ}

theorem contour?_withDiv (h : Agrees d (contourDivisions t p l)) :
    @contour? α (.withDiv d) t p l = contour? t p l := by
  unfold contourDivisions at h
  change (l.cycleLabels >>= fun labels =>
    @Contour.between α (.withDiv d) t.arc p labels.1 labels.2).toOption = _
  unfold contour?
  cases hlabels : l.cycleLabels with
  | error e => rfl
  | ok labels =>
    rw [hlabels] at h
    exact congrArg Except.toOption (Contour.between_withDiv h)

theorem move_withDiv (h : Agrees d (moveDivisions t s.modal l)) :
    @move α (.withDiv d) t s l index = move t s l index := by
  unfold moveDivisions at h
  refine ite_congr rfl (fun _ => rfl) fun hnear => ?_
  rw [if_neg hnear] at h
  exact congrArg (fun path : List (Position α) => Outcome.mk
      { s with modal := { s.modal with position := s.modal.target l } }
      (path.map fun p => .make p s.modal.motion.kind s.block s.modal.feed (some index) l.aux?) none)
    (Contour.Tracing.pathTo_withDiv h)

theorem rough_withDiv (h : Agrees d (contourDivisions t p l))
    (hrough : Agrees d (((contour? t p l).map (roughDivisions t s.modal l)).getD [])) :
    @rough α (.withDiv d) t p s l index = rough t p s l index := by
  unfold rough
  rw [contour?_withDiv h]
  cases hcontour : contour? t p l with
  | none => rfl
  | some contour =>
    rw [hcontour] at hrough
    rcases contour with _ | ⟨a, _ | ⟨b, rest⟩⟩
    · rfl
    · rfl
    · exact congrArg (fun e : Expansion α => Outcome.mk
          { s with modal := { s.modal with pending := none }, block := e.lastBlock } e.points
          (resumeLine? p l))
        (Roughing.expand_withDiv hrough)

theorem finish_withDiv (h : Agrees d (contourDivisions t p l)) :
    @finish α (.withDiv d) t p s l index = finish t p s l index := by
  unfold finish
  rw [contour?_withDiv h]
  cases hcontour : contour? t p l with
  | none => rfl
  | some contour =>
    exact congrArg (fun e : Expansion α => Outcome.mk { s with block := e.lastBlock } e.points none)
      Finishing.expand_withDiv

theorem step_withDiv (h : Agrees d (divisionsOn t p s l)) :
    @step α (.withDiv d) t p s l index = step t p s l index := by
  unfold divisionsOn at h
  refine ite_congr rfl (fun _ => rfl) fun _ => ?_
  refine ite_congr rfl (fun hstarted : s.started = true => ?_) fun _ => rfl
  rw [if_pos hstarted] at h
  have haction : @Line.action α (.withDiv d) l = l.action := rfl
  unfold perform
  rw [haction]
  cases hl : l.action with
  | mark code => rfl
  | announce depth => rfl
  | rough =>
    rw [hl] at h
    obtain ⟨hcontour, hrough⟩ := agrees_append.1 h
    exact rough_withDiv hcontour hrough
  | finish =>
    rw [hl] at h
    exact finish_withDiv h
  | move =>
    rw [hl] at h
    exact move_withDiv h
  | nothing => rfl

theorem visitsFrom_withDiv
    (h : Agrees d ((visitsFrom t p s index).flatMap fun v => divisionsOn t p v.before v.line)) :
    @visitsFrom α (.withDiv d) t p s index = visitsFrom t p s index := by
  fun_induction visitsFrom t p s index with
  | case1 s index hlt line o ih =>
    obtain ⟨hfirst, hrest⟩ := agrees_append.1 h
    rw [@visitsFrom_of_lt α (.withDiv d) t p s index hlt, step_withDiv hfirst]
    exact congrArg _ (ih hrest)
  | case2 s index hlt => exact @visitsFrom_of_le α (.withDiv d) t p s index (not_lt.1 hlt)

end Walk

namespace Subdivision

variable {limit : α}

theorem inserted_withDiv {a b : Point α} (h : Agrees d (cutDivisions limit a b)) :
    @inserted α (.withDiv d) limit a b = inserted limit a b := by
  unfold cutDivisions at h
  refine ite_congr rfl (fun hlong => ?_) fun _ => rfl
  rw [if_pos hlong] at h
  obtain ⟨hlimit, hparts⟩ := agrees_cons.1 h
  rw [Scalar.div_withDiv d, hlimit]
  refine List.map_congr_left fun k hk => congrArg (between a b) ?_
  exact hparts ⟨.movePart, _⟩ (List.mem_map.2 ⟨k, hk, rfl⟩) _

theorem subdivide_withDiv {path : List (Point α)} (h : Agrees d (divisions limit path)) :
    @subdivide α (.withDiv d) limit path = subdivide limit path := by
  cases path with
  | nil => rfl
  | cons first rest =>
    unfold divisions at h
    refine ite_congr rfl (fun hlimit => ?_) fun _ => rfl
    rw [if_pos hlimit] at h
    refine congrArg (first :: ·) (List.flatMap_congr fun ab hab => ?_)
    exact congrArg (· ++ [ab.2]) (inserted_withDiv (h.of_mem_flatMap hab))

end Subdivision

/-- **Interpretation divides by nothing that is not listed.**  A program has the same trace over
scalars with another division that is the same for the divisors of the program. -/
theorem Program.trace_withDiv {t : Tuning α} {p : Program α} (h : Agrees d (p.divisions t)) :
    @trace α (.withDiv d) t p = p.trace t := by
  obtain ⟨hwalk, hsubdivide⟩ := agrees_append.1 h
  have hpoints : @Walk.points α (.withDiv d) t p = Walk.points t p :=
    congrArg (List.flatMap fun v : Walk.Visit α => v.outcome.points) (Walk.visitsFrom_withDiv hwalk)
  unfold trace
  rw [hpoints, Subdivision.subdivide_withDiv hsubdivide]

end Lathe
