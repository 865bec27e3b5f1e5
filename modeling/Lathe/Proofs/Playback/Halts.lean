import Lathe.Proofs.Motion.Stamps
import Lathe.Proofs.Playback.Tick

/-!
# Halts of a subdivided path

Subdivision copies the block and the M code of a point onto the points that it inserts before it.
Playback halts on the last point of a block only, and an inserted point is followed by one of its
own block; so a path halts playback at the same points whether it is subdivided or not
(`Player.haltsAhead_subdivide`).

* `Player.haltsAhead` : the points after the first one that halt playback, with the reasons.
* `Player.pathHalts` : the same read off the points one after another, each beside the block of the
  next.
-/

namespace Lathe

namespace Player

variable {α : Type} (p : Player α)

/-- The points after the first one that halt playback, in order, with the reasons. -/
def haltsAhead : List (Point α × Halt) :=
  (p.trace.points.toList.zipIdx.drop 1).filterMap fun (q, i) => (p.haltAt? i).map (q, ·)

/-- Why playback halts on a point with the given block behind it, or at the end of the trace. -/
def haltBefore? (q : Point α) : Option Nat → Option Halt
  | none => some .endOfTrace
  | some next => if q.block = next then none else p.blockHalt? q.stop?

/-- The points at the end of a path that halt playback, in order, with the reasons. -/
def pathHalts : List (Point α) → List (Point α × Halt)
  | [] => []
  | q :: rest =>
    ((p.haltBefore? q (rest.head?.map Point.block)).map (q, ·)).toList ++ pathHalts rest

variable {p} {q : Point α} {rest : List (Point α)}

theorem haltAt?_eq_haltBefore? {seen : List (Point α)}
    (h : p.trace.points.toList = seen ++ q :: rest) :
    p.haltAt? seen.length = p.haltBefore? q (rest.head?.map Point.block) := by
  have hsize : p.trace.size = seen.length + rest.length + 1 := by
    rw [Trace.size, ← Array.length_toList, h]
    simp
    omega
  have hget : p.trace.get? seen.length = some q := by
    rw [Trace.get?, ← Array.getElem?_toList, h]
    simp
  have hnext : p.trace.get? (seen.length + 1) = rest.head? := by
    rw [Trace.get?, ← Array.getElem?_toList, h]
    simp [List.getElem?_append_right, List.head?_eq_getElem?]
  cases rest with
  | nil => rw [haltAt?_of_size_le (by simp [hsize])]; rfl
  | cons next rest =>
    rw [haltAt?, if_neg (by simp [hsize]), Trace.endsBlock, hget, hnext]
    by_cases hb : q.block = next.block <;> simp [haltBefore?, hb]

/-- The halts of a trace are those of its path, from any point on. -/
theorem filterMap_zipIdx_eq_pathHalts {seen : List (Point α)}
    (h : p.trace.points.toList = seen ++ rest) :
    ((rest.zipIdx seen.length).filterMap fun (q, i) => (p.haltAt? i).map (q, ·)) =
      p.pathHalts rest := by
  induction rest generalizing seen with
  | nil => rfl
  | cons q rest ih =>
    have hseen : p.trace.points.toList = (seen ++ [q]) ++ rest := by simp [h]
    have hrest := ih hseen
    rw [List.length_append, List.length_singleton] at hrest
    rw [List.zipIdx_cons, List.filterMap_cons, pathHalts, ← hrest, ← haltAt?_eq_haltBefore? h]
    cases hhalt : p.haltAt? seen.length <;> simp [hhalt]

theorem haltsAhead_eq_pathHalts : p.haltsAhead = p.pathHalts p.trace.points.toList.tail := by
  unfold haltsAhead
  cases hpoints : p.trace.points.toList with
  | nil => rfl
  | cons first rest =>
    have hseen : p.trace.points.toList = [first] ++ rest := hpoints
    exact filterMap_zipIdx_eq_pathHalts hseen

/-- Only the flags of the player decide on which points of a path it halts. -/
@[simp]
theorem pathHalts_load (t : Trace α) (path : List (Point α)) :
    (p.load t).pathHalts path = p.pathHalts path := by
  induction path with
  | nil => rfl
  | cons q rest ih =>
    rw [pathHalts, pathHalts, ih]
    rfl

theorem haltsAhead_load (path : List (Point α)) :
    (p.load (.ofList path)).haltsAhead = p.pathHalts path.tail := by
  rw [haltsAhead_eq_pathHalts, pathHalts_load]
  rfl

/-- Points that are followed by one of their own block do not halt playback. -/
theorem pathHalts_append {before : List (Point α)} (h : ∀ a ∈ before, a.block = q.block) :
    p.pathHalts (before ++ q :: rest) = p.pathHalts (q :: rest) := by
  induction before with
  | nil => rfl
  | cons a before ih =>
    obtain ⟨ha, hbefore⟩ := List.forall_mem_cons.1 h
    have hnext : (before ++ q :: rest).head?.map Point.block = some a.block := by
      cases before with
      | nil => simp [ha]
      | cons b before => simp [ha, hbefore b]
    rw [List.cons_append, pathHalts, hnext, ih hbefore]
    simp [haltBefore?]

variable [Scalar α]

open Subdivision

theorem block_of_mem_inserted {limit : α} {a b q : Point α} (h : q ∈ inserted limit a b) :
    q.block = b.block := by
  obtain ⟨place, rfl⟩ := exists_of_mem_inserted h
  rfl

/-- Cutting the moves along a path keeps its halts. -/
theorem pathHalts_flatMap_inserted (limit : α) (first : Point α) (rest : List (Point α)) :
    p.pathHalts (((first :: rest).zip rest).flatMap fun (a, b) => inserted limit a b ++ [b]) =
      p.pathHalts rest := by
  induction rest generalizing first with
  | nil => rfl
  | cons b rest ih =>
    rw [List.zip_cons_cons, List.flatMap_cons, List.append_assoc, List.singleton_append,
      pathHalts_append fun a ha => block_of_mem_inserted ha, pathHalts, pathHalts, ih b]
    -- what follows `b` has the block of the next point of the path
    congr 3
    cases rest with
    | nil => rfl
    | cons c rest =>
      cases hins : inserted limit b c with
      | nil => simp [hins]
      | cons q more =>
        have hq : q.block = c.block := block_of_mem_inserted (hins ▸ List.mem_cons_self)
        simp [hins, hq]

/-- **Subdividing a path neither adds nor removes nor moves a halt.**  Whatever the limit, also one
that is zero, negative or not a number, and however the flags of the player are set: the points
after the first one that halt playback are the same, in the same order and for the same reasons. -/
theorem haltsAhead_subdivide (p : Player α) (limit : α) (path : List (Point α)) :
    (p.load (.ofList (subdivide limit path))).haltsAhead = (p.load (.ofList path)).haltsAhead := by
  rw [haltsAhead_load, haltsAhead_load]
  cases path with
  | nil => rfl
  | cons first rest =>
    unfold subdivide
    by_cases hlimit : Scalar.isPositive limit = true
    · simp only [hlimit, if_true]
      exact pathHalts_flatMap_inserted limit first rest
    · simp [hlimit]

end Player

end Lathe
