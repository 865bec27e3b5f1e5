import Lathe.Program.Basic
import Mathlib.Data.List.Forall2

/-!
# Reading lines

What a reader of programs may rely on:

* `Line.read_append_comment` : a comment behind a line is not read.
* `Line.read_eq_ok_nil_iff` : a line reads as no words exactly if it names no address.
* `Line.exists_aux?_of_has` : an M word that is read is an M code.
* `Program.getElem?_of_read` : a program is read line by line.
* `Program.read_insertLine`, `Program.read_appendComment` : what remarks do to a program.
-/

namespace Lathe

variable {α : Type}

theorem exists_of_map_eq_ok {ε β γ : Type} {f : β → γ} {r : Except ε β} {c : γ}
    (h : r.map f = .ok c) : ∃ b, r = .ok b ∧ f b = c := by
  cases r with
  | error e => cases h
  | ok b => exact ⟨b, rfl, Except.ok.inj h⟩

/-! ### Words -/

/-- A comment at the end is left out, whether or not a parenthesis is open there, if it does not
close one. -/
theorem uncommented_append_comment {comment : List Char} (h : ')' ∉ comment) (inside : Bool)
    (text : List Char) :
    uncommented inside (text ++ ';' :: comment) = uncommented inside text := by
  induction text generalizing inside with
  | nil =>
    -- an open parenthesis hides the comment, since nothing in it closes the parenthesis
    have hidden : ∀ rest : List Char, ')' ∉ rest → uncommented true rest = [] := by
      intro rest hrest
      induction rest with
      | nil => rfl
      | cons c cs ih =>
        rw [List.mem_cons, not_or] at hrest
        have hopen : (c != ')') = true := bne_iff_ne.2 (Ne.symm hrest.1)
        rw [uncommented, if_pos rfl, hopen]
        exact ih hrest.2
    cases inside with
    | true => exact hidden (';' :: comment) (by simpa using h)
    | false => rfl
  | cons c cs ih => simp only [List.cons_append, uncommented, ih]

variable [Scalar α]

namespace Word

theorem inRange_of_read {a : Address} {literal : List Char} {w : Word α}
    (h : read a literal = .ok w) : inRange w.address w.value = true := by
  unfold read at h
  split at h
  · cases h
  · dsimp only at h
    split_ifs at h with hfinite hrange
    cases h
    exact hrange

theorem inRange_of_ofItem {i : Item} {w : Word α} (h : ofItem i = .ok (some w)) :
    inRange w.address w.value = true := by
  unfold ofItem at h
  split at h
  · cases h
  · obtain ⟨w', hread, hw⟩ := exists_of_map_eq_ok h
    obtain rfl := Option.some.inj hw
    exact inRange_of_read hread

theorem ofItem_of_ofLetter?_eq_none {i : Item} (h : Address.ofLetter? i.letter = none) :
    ofItem (α := α) i = .ok none := by
  rw [ofItem, h]

theorem ofLetter?_eq_none_of_ofItem {i : Item} (h : ofItem (α := α) i = .ok none) :
    Address.ofLetter? i.letter = none := by
  unfold ofItem at h
  split at h
  · assumption
  · obtain ⟨w, -, hw⟩ := exists_of_map_eq_ok h
    cases hw

end Word

/-! ### Lines -/

namespace Line

theorem ofItems_cons_eq_ok_iff {i : Item} {is : List Item} {ws : List (Word α)} :
    ofItems (i :: is) = .ok ws ↔
      ∃ word words, Word.ofItem i = .ok word ∧ ofItems is = .ok words ∧
        ws = word.toList ++ words := by
  constructor
  · intro h
    rw [ofItems] at h
    cases hword : (Word.ofItem i : Except (Fault α) (Option (Word α))) with
    | error e => rw [hword] at h; cases h
    | ok word =>
      cases hwords : (ofItems is : Except (Fault α) (List (Word α))) with
      | error e => rw [hword, hwords] at h; cases h
      | ok words =>
        rw [hword, hwords] at h
        exact ⟨word, words, rfl, rfl, (Except.ok.inj h).symm⟩
  · rintro ⟨word, words, hword, hwords, rfl⟩
    rw [ofItems, hword, hwords]
    rfl

theorem inRange_of_ofItems {is : List Item} {ws : List (Word α)} (h : ofItems is = .ok ws) :
    ∀ w ∈ ws, Word.inRange w.address w.value = true := by
  induction is generalizing ws with
  | nil => cases h; simp
  | cons i is ih =>
    obtain ⟨word, words, hword, hwords, rfl⟩ := ofItems_cons_eq_ok_iff.1 h
    intro w hw
    obtain hw | hw := List.mem_append.1 hw
    · rw [Option.mem_toList] at hw
      exact Word.inRange_of_ofItem (hw ▸ hword)
    · exact ih hwords w hw

theorem read_eq_ok_iff {text : String} {l : Line α} :
    read text = .ok l ↔ ofItems (itemsOf text) = .ok l.words := by
  constructor
  · intro h
    obtain ⟨ws, hws, rfl⟩ := exists_of_map_eq_ok h
    exact hws
  · intro h
    rw [read, h]
    rfl

/-- A word that is read is in the range of its address. -/
theorem inRange_of_read {text : String} {l : Line α} (h : read text = .ok l) :
    ∀ w ∈ l.words, Word.inRange w.address w.value = true :=
  inRange_of_ofItems (read_eq_ok_iff.1 h)

/-- **An M word that is read is an M code.** -/
theorem exists_aux?_of_has {text : String} {l : Line α} (h : read text = .ok l)
    (hm : l.has .m = true) : ∃ code, l.aux? = some code := by
  have hsome : (l.words.find? fun w => decide (w.address = .m)).isSome = true := by
    rw [List.find?_isSome]
    exact List.any_eq_true.1 hm
  obtain ⟨w, hw⟩ := Option.isSome_iff_exists.1 hsome
  have haddress := List.find?_some hw
  have hrange := inRange_of_read h w (List.mem_of_find?_eq_some hw)
  rw [of_decide_eq_true haddress] at hrange
  obtain ⟨code, hcode⟩ := Option.isSome_iff_exists.1 hrange
  refine ⟨code, ?_⟩
  rw [aux?, value?, hw]
  exact hcode

/-- A line of text that names no address: blank, only comments, or only letters that mean
nothing. -/
def IsRemark (text : String) : Prop :=
  ∀ i ∈ itemsOf text, Address.ofLetter? i.letter = none
  deriving Decidable

/-- **A line reads as no words exactly if it names no address.** -/
theorem read_eq_ok_nil_iff {text : String} :
    read (α := α) text = .ok ⟨[]⟩ ↔ IsRemark text := by
  rw [read_eq_ok_iff, IsRemark]
  induction itemsOf text with
  | nil => exact ⟨fun _ => by simp, fun _ => rfl⟩
  | cons i is ih =>
    rw [ofItems_cons_eq_ok_iff, List.forall_mem_cons, ← ih]
    constructor
    · rintro ⟨word, words, hword, hwords, hnil⟩
      obtain ⟨hnone, rfl⟩ := List.append_eq_nil_iff.1 hnil.symm
      obtain rfl := Option.toList_eq_nil_iff.1 hnone
      exact ⟨Word.ofLetter?_eq_none_of_ofItem hword, hwords⟩
    · rintro ⟨hletter, hwords⟩
      exact ⟨none, [], Word.ofItem_of_ofLetter?_eq_none hletter, hwords, rfl⟩

/-- **A comment behind a line is not read.** -/
theorem read_append_comment {comment : String} (h : ')' ∉ comment.toList) (text : String) :
    read (α := α) (text ++ ";" ++ comment) = read text := by
  have hlist : (text ++ ";" ++ comment).toList = text.toList ++ ';' :: comment.toList := by
    simp
  rw [read, read, itemsOf, itemsOf, hlist, uncommented_append_comment h]

end Line

/-! ### Programs -/

namespace ReadError

/-- The same fault at a line with another index. -/
def renumber (f : Nat → Nat) (e : ReadError α) : ReadError α := { e with index := f e.index }

end ReadError

namespace Source

/-- The index that line `i` has after a line is inserted in front of line `n`. -/
def reindex (n i : Nat) : Nat :=
  if i < n then i else i + 1

/-- The source with a line inserted in front of the one with index `n`; an index behind the end
changes nothing. -/
def insertLine (s : Source) (n : Nat) (text : String) : Source :=
  ⟨(s.lines.toList.insertIdx n text).toArray⟩

/-- The source with a comment behind the line with index `i`. -/
def appendComment (s : Source) (i : Nat) (comment : String) : Source :=
  ⟨(s.lines.toList.modify i (· ++ ";" ++ comment)).toArray⟩

end Source

namespace Program

variable {n index : Nat} {texts : List String} {lines : List (Line α)}

theorem readFrom_cons_of_ok {text : String} {l : Line α} (h : Line.read text = .ok l) :
    readFrom index (text :: texts) = (readFrom (index + 1) texts).map (l :: ·) := by
  rw [readFrom, h]

theorem readFrom_cons_of_error {text : String} {fault : Fault α}
    (h : Line.read text = .error fault) :
    readFrom index (text :: texts) = .error ⟨index, fault⟩ := by
  rw [readFrom, h]

theorem getElem?_of_readFrom {i : Nat} {l : Line α} (h : readFrom index texts = .ok lines)
    (hl : lines[i]? = some l) : ∃ text, texts[i]? = some text ∧ Line.read text = .ok l := by
  induction texts generalizing index i lines with
  | nil => cases h; cases hl
  | cons text texts ih =>
    cases hread : (Line.read text : Except (Fault α) (Line α)) with
    | error fault => rw [readFrom_cons_of_error hread] at h; cases h
    | ok l' =>
      rw [readFrom_cons_of_ok hread] at h
      obtain ⟨rest, hrest, rfl⟩ := exists_of_map_eq_ok h
      cases i with
      | zero => cases hl; exact ⟨text, rfl, hread⟩
      | succ i => exact ih hrest hl

/-- Every line of a program that is read is read from the line of text with the same index. -/
theorem getElem?_of_read {s : Source} {p : Program α} (h : read s = .ok p) {i : Nat} {l : Line α}
    (hl : p.lines[i]? = some l) : ∃ text, s.lines[i]? = some text ∧ Line.read text = .ok l := by
  obtain ⟨lines, hlines, rfl⟩ := exists_of_map_eq_ok h
  obtain ⟨text, htext, hread⟩ := getElem?_of_readFrom hlines (by simpa using hl)
  exact ⟨text, by simpa using htext, hread⟩

theorem exists_text_of_read {s : Source} {p : Program α} (h : read s = .ok p) {i : Nat}
    {l : Line α} (hl : p.lines[i]? = some l) : ∃ text ∈ s.lines, Line.read text = .ok l := by
  obtain ⟨text, htext, hread⟩ := getElem?_of_read h hl
  exact ⟨text, Array.mem_of_getElem? htext, hread⟩

/-- Lines further down are read alike, with faults further down. -/
theorem readFrom_succ (hindex : n ≤ index) :
    readFrom (α := α) (index + 1) texts =
      (readFrom index texts).mapError (ReadError.renumber (Source.reindex n)) := by
  induction texts generalizing index with
  | nil => rfl
  | cons text texts ih =>
    cases hl : (Line.read text : Except (Fault α) (Line α)) with
    | error fault =>
      rw [readFrom_cons_of_error hl, readFrom_cons_of_error hl]
      simp [Except.mapError, ReadError.renumber, Source.reindex, Nat.not_lt.2 hindex]
    | ok l =>
      rw [readFrom_cons_of_ok hl, readFrom_cons_of_ok hl, ih (Nat.le_succ_of_le hindex)]
      cases (readFrom (index + 1) texts : Except (ReadError α) (List (Line α))) <;> rfl

/-- Reading passes over a remark. -/
theorem readFrom_insertIdx {remark : String} (h : Line.IsRemark remark) {k : Nat}
    (hn : index + k = n) :
    readFrom (α := α) index (texts.insertIdx k remark) =
      ((readFrom index texts).map (·.insertIdx k ⟨[]⟩)).mapError
        (ReadError.renumber (Source.reindex n)) := by
  induction k generalizing index texts with
  | zero =>
    rw [List.insertIdx_zero, readFrom_cons_of_ok (Line.read_eq_ok_nil_iff.2 h),
      readFrom_succ (Nat.le_of_eq hn.symm)]
    cases (readFrom index texts : Except (ReadError α) (List (Line α))) <;> rfl
  | succ k ih =>
    cases texts with
    | nil => rfl
    | cons text texts =>
      rw [List.insertIdx_succ_cons]
      cases hl : (Line.read text : Except (Fault α) (Line α)) with
      | error fault =>
        rw [readFrom_cons_of_error hl, readFrom_cons_of_error hl]
        have hindex : index < n := by omega
        simp [Except.map, Except.mapError, ReadError.renumber, Source.reindex, hindex]
      | ok l =>
        rw [readFrom_cons_of_ok hl, readFrom_cons_of_ok hl, ih (by omega)]
        cases (readFrom (index + 1) texts : Except (ReadError α) (List (Line α))) <;> rfl

/-- The program with a line without words inserted in front of the one with index `n`. -/
def insertBlank (p : Program α) (n : Nat) : Program α :=
  ⟨(p.lines.toList.insertIdx n ⟨[]⟩).toArray⟩

/-- **Reading passes over an inserted remark**: the program gets a line without words there, and a
fault is reported where its line now is. -/
theorem read_insertLine {remark : String} (h : Line.IsRemark remark) (s : Source) (n : Nat) :
    read (α := α) (s.insertLine n remark) =
      ((read s).map (·.insertBlank n)).mapError (ReadError.renumber (Source.reindex n)) := by
  rw [read, read, Source.insertLine, readFrom_insertIdx h (Nat.zero_add n)]
  cases (readFrom 0 s.lines.toList : Except (ReadError α) (List (Line α))) <;> rfl

theorem readFrom_congr {texts' : List String}
    (h : texts.map (Line.read (α := α)) = texts'.map Line.read) :
    readFrom (α := α) index texts = readFrom index texts' := by
  induction texts generalizing index texts' with
  | nil => rw [List.map_nil, eq_comm, List.map_eq_nil_iff] at h; rw [h]
  | cons text texts ih =>
    cases texts' with
    | nil => cases h
    | cons text' texts' =>
      rw [List.map_cons, List.map_cons, List.cons.injEq] at h
      rw [readFrom, readFrom, h.1, ih h.2]

/-- **Reading passes over an appended comment.** -/
theorem read_appendComment {comment : String} (h : ')' ∉ comment.toList) (s : Source) (i : Nat) :
    read (α := α) (s.appendComment i comment) = read s := by
  rw [read, read, Source.appendComment]
  congr 1
  refine readFrom_congr (List.ext_getElem? fun j => ?_)
  rw [List.getElem?_map, List.getElem?_map, List.getElem?_modify]
  split_ifs
  · cases s.lines.toList[j]? with
    | none => rfl
    | some text => exact congrArg some (Line.read_append_comment h text)
  · simp

end Program

end Lathe
