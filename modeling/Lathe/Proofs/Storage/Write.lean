import Mathlib.Tactic.SplitIfs
import Lathe.Storage.Basic

/-!
# What is written is read

Writing a file makes the directories that lead to it and then puts the file into the last one.
Neither step takes a directory away, and the file does not stand where a directory is: so the names
that were followed to write it lead to it afterwards (`Storage.read_of_write`).
-/

namespace Lathe

/-- A sequence that succeeds has a first step that does. -/
theorem exists_of_bind_eq_ok {ε β γ : Type} {x : Except ε β} {f : β → Except ε γ} {c : γ}
    (h : x >>= f = .ok c) : ∃ b, x = .ok b ∧ f b = .ok c := by
  cases x with
  | ok b => exact ⟨b, rfl, h⟩
  | error e => cases h

namespace Storage

variable {s s' s'' : Storage}

/-- Whatever name leads from a directory to a directory still does so. -/
def KeepsDirectories (s s' : Storage) : Prop :=
  ∀ place name target, s.follow (.directory place) name = .ok (.directory target) →
    s'.follow (.directory place) name = .ok (.directory target)

theorem KeepsDirectories.refl (s : Storage) : KeepsDirectories s s := fun _ _ _ h => h

theorem KeepsDirectories.trans (h : KeepsDirectories s s') (h' : KeepsDirectories s' s'') :
    KeepsDirectories s s'' :=
  fun place name target hfollow => h' place name target (h place name target hfollow)

/-- What a name can lead to inside a directory. -/
theorem enter_cases (s : Storage) (place : Place) (name : String) :
    (nameLimit < name.utf8ByteSize ∧ s.enter place name = .error .nameTooLong) ∨
    (∃ text, s.files.lookup (place ++ [name]) = some text ∧ name.utf8ByteSize ≤ nameLimit ∧
      s.enter place name = .ok (.file text)) ∨
    (s.files.lookup (place ++ [name]) = none ∧ name.utf8ByteSize ≤ nameLimit ∧
      s.hasDirectory (place ++ [name]) = true ∧
      s.enter place name = .ok (.directory (place ++ [name]))) ∨
    (s.files.lookup (place ++ [name]) = none ∧ name.utf8ByteSize ≤ nameLimit ∧
      s.hasDirectory (place ++ [name]) = false ∧ s.enter place name = .error .notFound) := by
  unfold enter
  by_cases hlong : nameLimit < name.utf8ByteSize
  · simp [hlong]
  · have hshort := Nat.le_of_not_lt hlong
    cases hfile : s.files.lookup (place ++ [name]) with
    | some text => simp [hlong, hshort, hfile]
    | none =>
      cases hdirectory : s.hasDirectory (place ++ [name]) <;>
        simp [hlong, hshort, hfile, hdirectory]

/-- A name leads into a directory at a place without a file, where a directory is. -/
theorem enter_eq_directory_iff {place target : Place} {name : String} :
    s.enter place name = .ok (.directory target) ↔
      target = place ++ [name] ∧ name.utf8ByteSize ≤ nameLimit ∧
        s.files.lookup target = none ∧ s.hasDirectory target = true := by
  obtain ⟨hlong, h⟩ | ⟨text, hfile, hlong, h⟩ | ⟨hfile, hlong, hdirectory, h⟩ |
    ⟨hfile, hlong, hdirectory, h⟩ := enter_cases s place name
  · simp [h, Nat.not_le.2 hlong]
  · rw [h]
    simp only [Except.ok.injEq, reduceCtorEq, false_iff]
    rintro ⟨rfl, -, hnone, -⟩
    simp [hfile] at hnone
  · rw [h]
    simp only [Except.ok.injEq, Found.directory.injEq]
    constructor
    · rintro rfl
      exact ⟨rfl, hlong, hfile, hdirectory⟩
    · rintro ⟨rfl, -⟩
      rfl
  · rw [h]
    simp only [reduceCtorEq, false_iff]
    rintro ⟨rfl, -, -, hthere⟩
    simp [hdirectory] at hthere

/-- Directories are kept if they stay and no file takes their place. -/
theorem keepsDirectories_of
    (h : ∀ place, s.files.lookup place = none → s.hasDirectory place = true →
    s'.files.lookup place = none ∧ s'.hasDirectory place = true) : KeepsDirectories s s' := by
  intro place name target hfollow
  unfold follow at hfollow ⊢
  dsimp only at hfollow ⊢
  by_cases hidle : Path.isIdle name = true
  · rw [if_pos hidle] at hfollow ⊢
    exact hfollow
  · rw [if_neg hidle] at hfollow ⊢
    by_cases hup : name = ".."
    · rw [if_pos hup] at hfollow ⊢
      exact hfollow
    · rw [if_neg hup] at hfollow ⊢
      obtain ⟨htarget, hlong, hfile, hdirectory⟩ := enter_eq_directory_iff.1 hfollow
      obtain ⟨hfile', hdirectory'⟩ := h target hfile hdirectory
      exact enter_eq_directory_iff.2 ⟨htarget, hlong, hfile', hdirectory'⟩

/-- Making a directory where nothing is keeps the others. -/
theorem keepsDirectories_make (s : Storage) (target : Place) :
    KeepsDirectories s { s with directories := target :: s.directories } := by
  refine keepsDirectories_of fun place hfile hdirectory => ⟨hfile, ?_⟩
  simp only [hasDirectory, List.any_cons, Bool.or_eq_true] at hdirectory ⊢
  exact hdirectory.imp_left .inr

/-- Nothing is found only by a name that leads into a directory. -/
theorem follow_eq_enter {place : Place} {name : String}
    (h : ∀ target, s.follow (.directory place) name ≠ .ok (.directory target)) :
    ∀ s' : Storage, s'.follow (.directory place) name = s'.enter place name := by
  intro s'
  unfold follow at h ⊢
  dsimp only at h ⊢
  by_cases hidle : Path.isIdle name = true
  · rw [if_pos hidle] at h
    exact absurd rfl (h place)
  · rw [if_neg hidle] at h ⊢
    by_cases hup : name = ".."
    · rw [if_pos hup] at h
      exact absurd rfl (h (Place.above place))
    · rw [if_neg hup]

/-- A name under which nothing was found leads to the directory that is made for it. -/
theorem follow_make {place : Place} {name : String}
    (h : s.follow (.directory place) name = .error .notFound) :
    follow { s with directories := (place ++ [name]) :: s.directories } (.directory place) name =
      .ok (.directory (place ++ [name])) := by
  have hnone : ∀ target, s.follow (.directory place) name ≠ .ok (.directory target) := by simp [h]
  have henter := follow_eq_enter hnone
  rw [henter] at h ⊢
  obtain ⟨-, h'⟩ | ⟨text, -, -, h'⟩ | ⟨-, -, -, h'⟩ | ⟨hfile, hlong, -, -⟩ :=
    enter_cases s place name
  · cases h.symm.trans h'
  · cases h.symm.trans h'
  · cases h.symm.trans h'
  · refine enter_eq_directory_iff.2 ⟨rfl, hlong, hfile, ?_⟩
    simp [hasDirectory]

/-- **The directories that are made are followed by their names.** -/
theorem followAll_of_makeAll {made : Bool} {place place' : Place} {names : List String}
    (h : s.makeAll made place names = .ok (s', place')) :
    KeepsDirectories s s' ∧ s'.followAll (.directory place) names = .ok (.directory place') := by
  induction names generalizing s made place with
  | nil =>
    cases h
    exact ⟨.refl _, rfl⟩
  | cons name names ih =>
    unfold makeAll at h
    cases hfollow : s.follow (.directory place) name with
    | ok found =>
      cases found with
      | directory target =>
        rw [hfollow] at h
        obtain ⟨hkeeps, hall⟩ := ih h
        refine ⟨hkeeps, ?_⟩
        rw [followAll, hkeeps place name target hfollow]
        exact hall
      | file text =>
        rw [hfollow] at h
        cases h
    | error e =>
      cases e with
      | notFound =>
        rw [hfollow] at h
        obtain ⟨hkeeps, hall⟩ := ih h
        refine ⟨(keepsDirectories_make s _).trans hkeeps, ?_⟩
        rw [followAll, hkeeps _ _ _ (follow_make hfollow)]
        exact hall
      | alreadyExists | notDirectory | isDirectory | nameTooLong | badCharacter =>
        rw [hfollow] at h
        cases h

/-- What is known when a file can be put under a name: the name leads to a place that holds a file
or nothing. -/
theorem of_putFile {place : Place} {name text : String} (h : s.putFile place name text = .ok s') :
    (∀ t : Storage, t.follow (.directory place) name = t.enter place name) ∧
      name.utf8ByteSize ≤ nameLimit ∧
      (s.files.lookup (place ++ [name]) = none → s.hasDirectory (place ++ [name]) = false) ∧
      s' = { s with files :=
        (place ++ [name], text) :: s.files.filter (·.1 ≠ place ++ [name]) } := by
  unfold putFile at h
  have hdirectory : ∀ target, s.follow (.directory place) name ≠ .ok (.directory target) := by
    intro target hfollow
    rw [hfollow] at h
    cases h
  have henter := follow_eq_enter hdirectory
  rw [henter s] at h hdirectory
  obtain ⟨hlong, h'⟩ | ⟨text', hfile, hlong, h'⟩ | ⟨hfile, hlong, -, h'⟩ |
      ⟨hfile, hlong, hnone, h'⟩ :=
    enter_cases s place name
  · rw [h'] at h
    cases h
  · rw [h'] at h
    cases h
    exact ⟨henter, hlong, by simp [hfile], rfl⟩
  · exact absurd h' (hdirectory _)
  · rw [h'] at h
    cases h
    exact ⟨henter, hlong, fun _ => hnone, rfl⟩

/-- **A file that is put into a directory is found there**, and no directory is lost. -/
theorem follow_of_putFile {place : Place} {name text : String}
    (h : s.putFile place name text = .ok s') :
    KeepsDirectories s s' ∧ s'.follow (.directory place) name = .ok (.file text) := by
  obtain ⟨henter, hlong, hfree, rfl⟩ := of_putFile h
  constructor
  · refine keepsDirectories_of fun other hfile hdirectory => ?_
    have hne : other ≠ place ++ [name] := by
      rintro rfl
      rw [hfree hfile] at hdirectory
      cases hdirectory
    have hfiles := List.lookup_eq_none_iff.1 hfile
    constructor
    · refine List.lookup_eq_none_iff.2 fun file hmem => ?_
      rcases List.mem_cons.1 hmem with rfl | hmem
      · simpa using hne
      · exact hfiles file (List.mem_filter.1 hmem).1
    · simp only [hasDirectory, List.any_cons, Bool.or_eq_true] at hdirectory ⊢
      refine hdirectory.imp_right fun hany => ?_
      obtain ⟨file, hmem, hprefix⟩ := List.any_eq_true.1 hany
      by_cases hsame : file.1 = place ++ [name]
      · exact .inl (hsame ▸ hprefix)
      · exact .inr (List.any_eq_true.2
          ⟨file, List.mem_filter.2 ⟨hmem, by simpa using hsame⟩, hprefix⟩)
  · rw [henter]
    simp [enter, Nat.not_lt.2 hlong]

theorem eq_append_of_splitLast? {names before : List String} {last : String}
    (h : Path.splitLast? names = some (before, last, [])) : names = before ++ [last] := by
  unfold Path.splitLast? at h
  dsimp only at h
  split at h
  · cases h
  · rename_i last' before' hdrop
    simp only [Option.some.injEq, Prod.mk.injEq, List.reverse_eq_nil_iff] at h
    obtain ⟨rfl, rfl, hidle⟩ := h
    have hall := List.takeWhile_append_dropWhile (p := Path.isIdle) (l := names.reverse)
    rw [hidle, hdrop, List.nil_append] at hall
    rw [← List.reverse_reverse names, ← hall]
    simp

theorem followAll_append {found : Found} {names more : List String} {place : Place}
    (h : s.followAll found names = .ok (.directory place)) :
    s.followAll found (names ++ more) = s.followAll (.directory place) more := by
  induction names generalizing found with
  | nil =>
    cases h
    rfl
  | cons name names ih =>
    rw [List.cons_append, followAll]
    rw [followAll] at h
    cases hfollow : s.follow found name with
    | error e =>
      rw [hfollow] at h
      cases h
    | ok next =>
      rw [hfollow] at h
      exact ih h

theorem KeepsDirectories.followAll (h : KeepsDirectories s s') {place target : Place}
    {names : List String} (hall : s.followAll (.directory place) names = .ok (.directory target)) :
    s'.followAll (.directory place) names = .ok (.directory target) := by
  induction names generalizing place with
  | nil => exact hall
  | cons name names ih =>
    rw [Storage.followAll] at hall ⊢
    cases hfollow : s.follow (.directory place) name with
    | error e =>
      rw [hfollow] at hall
      cases hall
    | ok found =>
      rw [hfollow] at hall
      cases found with
      | directory next =>
        rw [h place name next hfollow]
        exact ih hall
      | file text =>
        -- a file leads no further
        cases names <;> cases hall

/-- **What is written is read.** -/
theorem read_of_write {path text : String} (h : s.write path text = .ok s') :
    s'.read path = .ok text := by
  unfold write at h
  obtain ⟨⟨⟩, hcheck, h⟩ := exists_of_bind_eq_ok h
  cases hparts : Path.splitLast? (Path.parts path) with
  | none =>
    rw [hparts] at h
    cases h
  | some parts =>
    obtain ⟨names, last, idle⟩ := parts
    rw [hparts] at h
    dsimp only at h
    obtain ⟨⟨made, place⟩, hmade, hput⟩ := exists_of_bind_eq_ok h
    dsimp only at hput
    split_ifs at hput with hidle hempty
    · obtain rfl := List.isEmpty_iff.1 hidle
      obtain ⟨hkeeps, hfound⟩ := follow_of_putFile hput
      have hall := hkeeps.followAll (followAll_of_makeAll hmade).2
      have hlookup : s'.lookup path = .ok (.file text) := by
        rw [lookup, hcheck, eq_append_of_splitLast? hparts]
        refine (followAll_append hall).trans ?_
        rw [followAll, hfound]
        rfl
      rw [read, hlookup]
      rfl
    · -- a path that asks for a directory is never written
      obtain ⟨found, -, hthrow⟩ := exists_of_bind_eq_ok hput
      cases found <;> cases hthrow

end Storage

end Lathe
