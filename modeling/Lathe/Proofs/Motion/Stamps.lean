import Lathe.Motion.Subdivision
import Mathlib.Data.List.Basic

/-!
# Stamps along a subdivided path

All of a point but its place is its *stamp*: its kind, program line, block, feed and M code.
Subdividing a path inserts points that are stamped like the one they lead to, so that what is said
of stamps alone is true of the subdivided path if it is true of the path:

* `Subdivision.exists_of_mem_subdivide` : every point is stamped like a point of the path.
* `Subdivision.pairwise_subdivide` : relations between stamps along the path.
* `Subdivision.find?_reverse_subdivide` : the last point with a given stamp.
-/

namespace Lathe

namespace Point

variable {α : Type}

/-- The point with the same stamp at another place. -/
def movedTo (q : Point α) (place : Position α) : Point α := { q with toPosition := place }

end Point

namespace Subdivision

variable {α : Type} [Scalar α] {limit : α} {path : List (Point α)} {a b q : Point α}

theorem exists_of_mem_inserted (h : q ∈ inserted limit a b) : ∃ place, q = b.movedTo place := by
  unfold inserted at h
  dsimp only at h
  split_ifs at h
  · obtain ⟨k, -, rfl⟩ := List.mem_map.1 h
    exact ⟨⟨_, _⟩, rfl⟩
  · cases h

/-- The points that replace the second of two neighbours: those that are inserted, and itself. -/
theorem exists_of_mem_inserted_append (h : q ∈ inserted limit a b ++ [b]) :
    ∃ place, q = b.movedTo place := by
  obtain h | h := List.mem_append.1 h
  · exact exists_of_mem_inserted h
  · exact ⟨b.toPosition, List.mem_singleton.1 h⟩

omit [Scalar α] in
theorem map_snd_zip_tail (first : Point α) (rest : List (Point α)) :
    ((first :: rest).zip rest).map Prod.snd = rest := by
  rw [List.map_snd_zip]
  simp

/-- The first point stays in front. -/
theorem subdivide_cons (limit : α) (first : Point α) (rest : List (Point α)) :
    ∃ more, subdivide limit (first :: rest) = first :: more ∧
      ∀ q ∈ more, ∃ b ∈ rest, ∃ place, q = b.movedTo place := by
  unfold subdivide
  dsimp only
  split_ifs
  · refine ⟨_, rfl, fun q hq => ?_⟩
    obtain ⟨⟨a, b⟩, hab, hq⟩ := List.mem_flatMap.1 hq
    exact ⟨b, (List.of_mem_zip hab).2, exists_of_mem_inserted_append hq⟩
  · exact ⟨rest, rfl, fun q hq => ⟨q, hq, q.toPosition, rfl⟩⟩

/-- **Every point of a subdivided path is stamped like a point of the path.** -/
theorem exists_of_mem_subdivide (h : q ∈ subdivide limit path) :
    ∃ b ∈ path, ∃ place, q = b.movedTo place := by
  cases path with
  | nil => cases h
  | cons first rest =>
    obtain ⟨more, heq, hmore⟩ := subdivide_cons limit first rest
    rw [heq] at h
    obtain rfl | h := List.mem_cons.1 h
    · exact ⟨q, List.mem_cons_self, q.toPosition, rfl⟩
    · obtain ⟨b, hb, hq⟩ := hmore q h
      exact ⟨b, List.mem_cons_of_mem _ hb, hq⟩

/-- **A relation between stamps along a path** is one along the subdivided path. -/
theorem pairwise_subdivide {R : Point α → Point α → Prop} (hrefl : ∀ a, R a a)
    (hstamp : ∀ a b place place', R a b → R (a.movedTo place) (b.movedTo place'))
    (h : path.Pairwise R) : (subdivide limit path).Pairwise R := by
  cases path with
  | nil => exact .nil
  | cons first rest =>
    obtain ⟨more, heq, hmore⟩ := subdivide_cons limit first rest
    obtain ⟨hfirst, hrest⟩ := List.pairwise_cons.1 h
    unfold subdivide
    dsimp only
    split_ifs
    · refine List.pairwise_cons.2 ⟨fun q hq => ?_, List.pairwise_flatMap.2 ⟨fun ab hab => ?_, ?_⟩⟩
      · obtain ⟨⟨a, b⟩, hab, hq⟩ := List.mem_flatMap.1 hq
        obtain ⟨place, rfl⟩ := exists_of_mem_inserted_append hq
        exact hstamp first b first.toPosition place (hfirst b (List.of_mem_zip hab).2)
      -- all points of one move are stamped alike
      · refine List.pairwise_of_forall_mem_list fun x hx y hy => ?_
        obtain ⟨place, rfl⟩ := exists_of_mem_inserted_append hx
        obtain ⟨place', rfl⟩ := exists_of_mem_inserted_append hy
        exact hstamp ab.2 ab.2 place place' (hrefl ab.2)
      · rw [← map_snd_zip_tail first rest, List.pairwise_map] at hrest
        refine hrest.imp fun {ab cd} hR x hx y hy => ?_
        obtain ⟨place, rfl⟩ := exists_of_mem_inserted_append hx
        obtain ⟨place', rfl⟩ := exists_of_mem_inserted_append hy
        exact hstamp ab.2 cd.2 place place' hR
    · exact h

/-- Of the points of one move the last is the one it leads to, and no other has a stamp that this
one does not have. -/
theorem find?_reverse_inserted_append {P : Point α → Bool}
    (hstamp : ∀ a place, P (a.movedTo place) = P a) :
    (inserted limit a b ++ [b]).reverse.find? P = Option.guard P b := by
  rw [List.reverse_append, List.reverse_singleton, List.singleton_append, List.find?_cons]
  cases hb : P b with
  | true => simp [Option.guard, hb]
  | false =>
    have hnone : (inserted limit a b).reverse.find? P = none := by
      rw [List.find?_eq_none]
      intro q hq
      obtain ⟨place, rfl⟩ := exists_of_mem_inserted (List.mem_reverse.1 hq)
      rw [hstamp, hb]
      exact Bool.false_ne_true
    simp [Option.guard, hb, hnone]

/-- **The last point with a given stamp** is that of the path. -/
theorem find?_reverse_subdivide {P : Point α → Bool}
    (hstamp : ∀ a place, P (a.movedTo place) = P a) :
    (subdivide limit path).reverse.find? P = path.reverse.find? P := by
  cases path with
  | nil => rfl
  | cons first rest =>
    unfold subdivide
    dsimp only
    split_ifs
    · have hrest : rest.reverse.find? P =
          ((first :: rest).zip rest).reverse.findSome? fun ab => Option.guard P ab.2 := by
        conv_lhs => rw [← map_snd_zip_tail first rest]
        rw [← List.map_reverse, List.find?_eq_findSome?_guard, List.findSome?_map]
        rfl
      rw [List.reverse_cons, List.reverse_cons, List.find?_append, List.find?_append, hrest,
        List.reverse_flatMap, List.find?_flatMap]
      simp only [Function.comp_apply, find?_reverse_inserted_append hstamp]
    · rfl

end Subdivision

end Lathe
