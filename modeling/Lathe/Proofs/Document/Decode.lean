import Mathlib.Data.List.Nodup
import Lathe.Document.Decode
import Lathe.Proofs.Document.Json

/-!
# Records from tables

A table with all fields of a record, each once and in order, gives the same record as the list of
their values (`Schema.ofEntries_zip`).  The readers of single values undo what values are made of:
numbers of 32 and 64 bits are kept, and a real number that has been lost is none.
-/

namespace Lathe

namespace Document

namespace Schema

variable {σ : Type} (s : Schema σ)

theorem find?_field {done more : List (Field σ)} {f : Field σ}
    (hnames : ((done ++ f :: more).map Field.name).Nodup) :
    (done ++ f :: more).find? (·.name == f.name) = some f := by
  have hdone : done.find? (·.name == f.name) = none := by
    rw [List.find?_eq_none]
    intro g hg
    rw [List.map_append] at hnames
    simpa using (List.nodup_append.1 hnames).2.2 g.name (List.mem_map_of_mem hg) f.name (by simp)
  rw [List.find?_append, hdone]
  simp

/-- The fields that come next are put in one after another, as from a list. -/
theorem putEntries_zip (shortLists : Bool) {done fields : List (Field σ)}
    (hfields : s.fields = done ++ fields) (hnames : (s.fields.map Field.name).Nodup) (record : σ)
    {values : List Value} (hlength : values.length = fields.length) :
    s.putEntries (done.map Field.name).reverse record ((fields.map Field.name).zip values) =
      (putItems shortLists record fields values).map fun r =>
        ((s.fields.map Field.name).reverse, r.1) := by
  induction fields generalizing done record values with
  | nil => simp [putEntries, putItems, hfields]
  | cons f fields ih =>
    obtain ⟨v, values, rfl⟩ := List.exists_cons_of_length_eq_add_one hlength
    have hnext : s.fields = (done ++ [f]) ++ fields := by simp [hfields]
    have hfind : s.fields.find? (·.name == f.name) = some f := by
      rw [hfields] at hnames ⊢
      exact find?_field hnames
    have hnew : (done.map Field.name).reverse.contains f.name = false := by
      rw [hfields, List.map_append, List.nodup_append] at hnames
      have hne : ∀ g ∈ done, g.name ≠ f.name := fun g hg =>
        hnames.2.2 g.name (List.mem_map_of_mem hg) f.name (by simp)
      simpa using hne
    rw [List.map_cons, List.zip_cons_cons, putEntries, hfind]
    simp only [hnew, Bool.false_eq_true, if_false, putItems]
    cases hput : f.put v record with
    | none => rfl
    | some record' =>
      have hmore := ih hnext record' (Nat.succ.inj hlength)
      simpa using hmore

/-- **A table with all fields in order gives the record that their values give as a list.** -/
theorem ofEntries_zip (shortLists : Bool) (hnames : (s.fields.map Field.name).Nodup)
    {values : List Value} (hlength : values.length = s.fields.length) :
    s.ofEntries ((s.fields.map Field.name).zip values) =
      (putItems shortLists s.start s.fields values).map Prod.fst := by
  have hput := s.putEntries_zip shortLists (s.fields.nil_append.symm) hnames s.start hlength
  rw [List.map_nil, List.reverse_nil] at hput
  rw [ofEntries, hput]
  cases hitems : putItems shortLists s.start s.fields values with
  | none => rfl
  | some r =>
    have hall : (s.fields.all fun f =>
        f.optional || (s.fields.map Field.name).reverse.contains f.name) = true := by
      rw [List.all_eq_true]
      intro f hf
      simp only [Bool.or_eq_true, List.contains_eq_mem, List.mem_reverse, decide_eq_true_eq]
      exact .inr (List.mem_map_of_mem hf)
    exact if_pos hall

theorem read_table_zip (shortLists longLists : Bool) (hnames : (s.fields.map Field.name).Nodup)
    {values : List Value} (hlength : values.length = s.fields.length) :
    s.read longLists (.table ((s.fields.map Field.name).zip values)) =
      (putItems shortLists s.start s.fields values).map Prod.fst :=
  s.ofEntries_zip shortLists hnames hlength

end Schema

namespace Value

@[simp] theorem word32?_int (n : UInt32) : word32? (.int n.toNat) = some n := by
  have hn : n.toNat ≤ limit32 := Nat.le_of_lt_succ n.toNat_lt
  simp [word32?, nat?, hn]

@[simp] theorem word64?_int (n : UInt64) : word64? (.int n.toNat) = some n := by
  have hn : n.toNat ≤ limit64 := Nat.le_of_lt_succ n.toNat_lt
  simp [word64?, nat?, hn]

/-- A real number that has been lost is none. -/
@[simp] theorem real?_losing (lost : Float → Bool) (x : Float) :
    real? ((real x).losing lost) = if lost x then none else some x := by
  rw [losing]
  split_ifs <;> rfl

end Value

namespace Schema

variable {σ : Type} (shortLists : Bool) (record : σ) (fields : List (Field σ)) (values : List Value)

theorem putItems_nil : putItems shortLists record [] values = some (record, values) := rfl

/-- A field is put in unless its reader gives nothing. -/
theorem putItems_of {β : Type} {name : String} {read : Value → Option β} {set : σ → β → σ}
    {v : Value} {missing : Bool} {b : β} (h : read v = if missing then none else some b) :
    putItems shortLists record (Field.of name read set :: fields) (v :: values) =
      if missing then none else putItems shortLists (set record b) fields values := by
  cases missing <;> simp_all [putItems, Field.of]

theorem putItems_real (lost : Float → Bool) {name : String} {set : σ → Float → σ} (x : Float) :
    putItems shortLists record (Field.of name Value.real? set :: fields)
        ((Value.real x).losing lost :: values) =
      if lost x then none else putItems shortLists (set record x) fields values :=
  putItems_of shortLists record fields values (Value.real?_losing lost x)

theorem putItems_word32 {name : String} {set : σ → UInt32 → σ} (n : UInt32) :
    putItems shortLists record (Field.of name Value.word32? set :: fields)
        (.int n.toNat :: values) = putItems shortLists (set record n) fields values :=
  putItems_of shortLists record fields values
    (show _ = if false then none else some n from Value.word32?_int n)

theorem putItems_word64 {name : String} {set : σ → UInt64 → σ} (n : UInt64) :
    putItems shortLists record (Field.of name Value.word64? set :: fields)
        (.int n.toNat :: values) = putItems shortLists (set record n) fields values :=
  putItems_of shortLists record fields values
    (show _ = if false then none else some n from Value.word64?_int n)

theorem putItems_bool {name : String} {set : σ → Bool → σ} (b : Bool) :
    putItems shortLists record (Field.of name Value.bool? set :: fields)
        (.bool b :: values) = putItems shortLists (set record b) fields values :=
  rfl

end Schema

end Document

end Lathe
