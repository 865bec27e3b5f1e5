import Lathe.Settings.Templates

/-!
# Reading templates into the built-in library

An ordered list holds each id once, so it is known by its members (`Templates.eq_of_mem_iff`).  The
built-in library with the templates of another one put into it is that other one, with the built-in
template if it has none of this id (`Templates.insertAll_builtin`).
-/

namespace Lathe

namespace Templates

theorem nodup_entries (t : Templates) : t.entries.Nodup := by
  refine t.ordered.imp ?_
  rintro e _ hlt rfl
  exact String.lt_irrefl e.1 hlt

theorem nodup_ids (t : Templates) : t.ids.Nodup := by
  rw [ids, List.Nodup, List.pairwise_map]
  refine t.ordered.imp ?_
  intro e e' hlt hid
  exact String.lt_irrefl e'.1 (hid ▸ hlt)

/-- Two libraries with the same templates are the same. -/
theorem eq_of_mem_iff {t t' : Templates} (h : ∀ e, e ∈ t.entries ↔ e ∈ t'.entries) : t = t' := by
  have hperm : t.entries.Perm t'.entries :=
    (List.perm_ext_iff_of_nodup t.nodup_entries t'.nodup_entries).2 h
  have hentries : t.entries = t'.entries :=
    hperm.eq_of_pairwise (fun e e' _ _ hlt hlt' =>
      absurd (String.lt_trans hlt hlt') (String.lt_irrefl e.1)) t.ordered t'.ordered
  cases t
  cases t'
  cases hentries
  rfl

/-- An entry takes the place of one with the same id. -/
theorem mem_insertEntry_iff {es : List (String × String)} (h : es.Pairwise fun a b => a.1 < b.1)
    {id text : String} {e : String × String} :
    e ∈ insertEntry id text es ↔ e = (id, text) ∨ e ∈ es ∧ e.1 ≠ id := by
  induction es with
  | nil => simp [insertEntry]
  | cons first rest ih =>
    obtain ⟨hfirst, hrest⟩ := List.pairwise_cons.1 h
    have hmore := ih hrest
    unfold insertEntry
    split
    · rename_i hbelow
      -- the new id is below all others
      have hother : ∀ e ∈ first :: rest, e.1 ≠ id := by
        rintro e he rfl
        rcases List.mem_cons.1 he with rfl | he
        · exact String.lt_irrefl _ hbelow
        · exact String.lt_irrefl _ (String.lt_trans hbelow (hfirst e he))
      rw [List.mem_cons]
      refine or_congr_right ⟨fun he => ⟨he, hother e he⟩, And.left⟩
    · split
      · rename_i hsame
        have hother : ∀ e ∈ rest, e.1 ≠ id := by
          rintro e he rfl
          exact String.lt_irrefl _ (hsame ▸ hfirst e he)
        rw [List.mem_cons, List.mem_cons]
        constructor
        · rintro (he | he)
          · exact .inl he
          · exact .inr ⟨.inr he, hother e he⟩
        · rintro (he | ⟨rfl | he, hne⟩)
          · exact .inl he
          · exact absurd hsame.symm hne
          · exact .inr he
      · rename_i hdifferent
        rw [List.mem_cons, List.mem_cons, hmore]
        constructor
        · rintro (rfl | he | ⟨he, hne⟩)
          · exact .inr ⟨.inl rfl, Ne.symm hdifferent⟩
          · exact .inl he
          · exact .inr ⟨.inr he, hne⟩
        · rintro (he | ⟨rfl | he, hne⟩)
          · exact .inr (.inl he)
          · exact .inl rfl
          · exact .inr (.inr ⟨he, hne⟩)

theorem exists_insert (t : Templates) {id : String} (text : String) (h : Text.trim id ≠ "") :
    ∃ t', t.insert id text = .ok t' ∧ t'.entries = insertEntry id text t.entries :=
  ⟨_, dif_neg h, rfl⟩

/-- Templates whose ids are not blank can all be put into a library; they take the place of those
with the same ids. -/
theorem exists_insertAll {stored : List (String × String)} (hids : (stored.map Prod.fst).Nodup)
    (hnamed : ∀ e ∈ stored, Text.trim e.1 ≠ "") (t : Templates) :
    ∃ t', t.insertAll stored = .ok t' ∧
      ∀ e, e ∈ t'.entries ↔ e ∈ stored ∨ e ∈ t.entries ∧ e.1 ∉ stored.map Prod.fst := by
  induction stored generalizing t with
  | nil => exact ⟨t, rfl, by simp⟩
  | cons first rest ih =>
    obtain ⟨id, text⟩ := first
    obtain ⟨hfirst, hrest⟩ := List.forall_mem_cons.1 hnamed
    rw [List.map_cons, List.nodup_cons] at hids
    obtain ⟨next, hinsert, hentries⟩ := t.exists_insert text hfirst
    obtain ⟨t', hall, hmem⟩ := ih hids.2 hrest next
    refine ⟨t', by rw [insertAll, hinsert]; exact hall, fun e => ?_⟩
    rw [hmem, hentries, mem_insertEntry_iff t.ordered, List.mem_cons, List.map_cons, List.mem_cons]
    constructor
    · rintro (he | ⟨rfl | ⟨he, hne⟩, hnot⟩)
      · exact .inl (.inr he)
      · exact .inl (.inl rfl)
      · exact .inr ⟨he, fun hor => hor.elim hne hnot⟩
    · rintro ((rfl | he) | ⟨he, hnot⟩)
      · exact .inr ⟨.inl rfl, hids.1⟩
      · exact .inl he
      · exact .inr ⟨.inr ⟨he, fun h => hnot (.inl h)⟩, fun h => hnot (.inr h)⟩

/-- A library with the built-in template, unless it has another one with its id. -/
def completed (t : Templates) : Templates :=
  if outerTurningId ∈ t.ids then t
  else
    { entries := insertEntry outerTurningId outerTurning t.entries
      ordered := pairwise_insertEntry t.ordered
      named := fun e he => (mem_insertEntry he).elim (fun same => same ▸ (by decide)) (t.named e) }

theorem mem_completed_iff {t : Templates} {e : String × String} :
    e ∈ t.completed.entries ↔
      e ∈ t.entries ∨ e ∈ builtin.entries ∧ e.1 ∉ t.entries.map Prod.fst := by
  have hbuiltin : e ∈ builtin.entries ↔ e = (outerTurningId, outerTurning) := by simp [builtin]
  rw [hbuiltin]
  by_cases hthere : outerTurningId ∈ t.ids
  · rw [completed, if_pos hthere]
    constructor
    · exact .inl
    · rintro (he | ⟨rfl, hnot⟩)
      · exact he
      · exact absurd hthere hnot
  · rw [completed, if_neg hthere, mem_insertEntry_iff t.ordered]
    constructor
    · rintro (rfl | ⟨he, -⟩)
      · exact .inr ⟨rfl, hthere⟩
      · exact .inl he
    · rintro (he | ⟨rfl, -⟩)
      · refine .inr ⟨he, ?_⟩
        rintro hid
        exact hthere (hid ▸ List.mem_map_of_mem he)
      · exact .inl rfl

/-- **The templates of a library, put into the built-in one, complete it.** -/
theorem insertAll_builtin (t : Templates) : builtin.insertAll t.entries = .ok t.completed := by
  obtain ⟨t', hall, hmem⟩ := exists_insertAll t.nodup_ids t.named builtin
  rw [hall, eq_of_mem_iff fun e => (hmem e).trans mem_completed_iff.symm]

end Templates

end Lathe
