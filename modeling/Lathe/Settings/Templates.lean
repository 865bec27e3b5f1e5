import Lathe.Text.Blank

/-!
# Program templates

Named example programs.  A library keeps them in the order of their ids, each id once, and no id
is blank: `Templates` carries both as invariants, and `Templates.insert` refuses what would break
them.
-/

namespace Lathe

/-- A library of program templates. -/
structure Templates where
  /-- Ids with program texts. -/
  entries : List (String × String)
  /-- The ids increase. -/
  ordered : entries.Pairwise fun a b => a.1 < b.1
  /-- No id is blank. -/
  named : ∀ e ∈ entries, Text.trim e.1 ≠ ""
  deriving DecidableEq, Repr

/-- Why the library refuses. -/
inductive TemplateError where
  /-- There is no template with the id. -/
  | notFound (id : String)
  /-- An id is blank. -/
  | blankId
  deriving DecidableEq, Repr

/-- The message for the operator. -/
def TemplateError.message : TemplateError → String
  | notFound id => "Template not found: " ++ id
  | blankId => "Template id must not be empty"

namespace Templates

/-- No templates. -/
def empty : Templates := ⟨[], .nil, nofun⟩

/-- The id of the built-in template. -/
def outerTurningId : String := "g71outer"

/-- A program that turns the outside of a part with both cycles. -/
def outerTurning : String :=
  "\n".intercalate
    ["; G71 roughing cycle", "O0010", "T0101", "G97 S600 M03", "G0 X65 Z3", "G71 U1 R0.5",
     "G71 P1 Q2 U1.0 W0.2 F0.25", "N1 G0 X20 W0", "G1 Z0 F0.15", "G1 X24 Z-2", "G1 Z-15",
     "G3 X30 Z-18 R3", "G1 Z-28", "G1 X40 Z-33", "G1 Z-45", "G1 X60", "N2 G1 Z-50", "G0 X65 Z3",
     "G70 P1 Q2", "G0 X65 Z5", "M30"]

/-- The library that every other one is built on. -/
def builtin : Templates where
  entries := [(outerTurningId, outerTurning)]
  ordered := List.pairwise_singleton _ _
  named := by
    intro e he
    rw [List.mem_singleton.1 he]
    decide

/-! ### Entries in order -/

/-- Put an entry into an ordered list, in place of one with the same id. -/
def insertEntry (id text : String) : List (String × String) → List (String × String)
  | [] => [(id, text)]
  | (id', text') :: rest =>
    if id < id' then (id, text) :: (id', text') :: rest
    else if id = id' then (id, text) :: rest
    else (id', text') :: insertEntry id text rest

theorem mem_insertEntry {id text : String} {es : List (String × String)} {e : String × String}
    (h : e ∈ insertEntry id text es) : e = (id, text) ∨ e ∈ es := by
  induction es with
  | nil => simpa [insertEntry] using h
  | cons e' rest ih =>
    unfold insertEntry at h
    split at h
    · simpa using h
    · split at h
      · rcases List.mem_cons.1 h with h | h
        · exact .inl h
        · exact .inr (List.mem_cons_of_mem _ h)
      · rcases List.mem_cons.1 h with h | h
        · exact .inr (h ▸ List.mem_cons_self)
        · exact (ih h).imp_right (List.mem_cons_of_mem _)

theorem pairwise_insertEntry {id text : String} {es : List (String × String)}
    (h : es.Pairwise fun a b => a.1 < b.1) :
    (insertEntry id text es).Pairwise fun a b => a.1 < b.1 := by
  induction es with
  | nil => exact List.pairwise_singleton _ _
  | cons e rest ih =>
    have ⟨first, later⟩ := List.pairwise_cons.1 h
    unfold insertEntry
    split
    · rename_i below
      refine List.pairwise_cons.2 ⟨fun e' he' => ?_, h⟩
      rcases List.mem_cons.1 he' with rfl | he'
      · exact below
      · exact String.lt_trans below (first e' he')
    · split
      · rename_i same
        subst same
        exact List.pairwise_cons.2 ⟨first, later⟩
      · rename_i notBelow different
        have above := fun le => different (String.le_antisymm le (String.not_lt.1 notBelow))
        refine List.pairwise_cons.2 ⟨fun e' he' => ?_, ih later⟩
        rcases mem_insertEntry he' with rfl | he'
        · exact String.not_le.1 above
        · exact first e' he'

/-! ### The library -/

variable (t : Templates)

/-- A library with one more template, in place of one with the same id. -/
def insert (id text : String) : Except TemplateError Templates :=
  if h : Text.trim id = "" then .error .blankId
  else .ok
    { entries := insertEntry id text t.entries
      ordered := pairwise_insertEntry t.ordered
      named := fun e he => (mem_insertEntry he).elim (fun same => same ▸ h) (t.named e) }

/-- A library with more templates, the last of those with one id counting. -/
def insertAll (t : Templates) : List (String × String) → Except TemplateError Templates
  | [] => .ok t
  | (id, text) :: rest =>
    match t.insert id text with
    | .ok t' => t'.insertAll rest
    | .error e => .error e

/-- The program text with an id. -/
def get (id : String) : Except TemplateError String :=
  match t.entries.lookup id with
  | some text => .ok text
  | none => .error (.notFound id)

/-- All ids, in increasing order. -/
def ids : List String := t.entries.map Prod.fst

/-- The number of templates. -/
def size : Nat := t.entries.length

end Templates

end Lathe
