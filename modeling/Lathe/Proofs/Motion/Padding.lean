import Lathe.Proofs.Motion.Renumbering
import Lathe.Proofs.Motion.Visits
import Mathlib.Data.List.Sort
import Mathlib.Order.MinMax
import Mathlib.Tactic.Tauto

/-!
# Lines without words

A program may be padded with lines that have no words.  `p.PadsTo f p'` says that `p'` is `p` with
such lines between its own, which `f` renumbers.  Both programs mean the same:

* `Program.PadsTo.lineOf?_eq` : labels name the same lines.
* `Contour.between_of_padsTo` : contours have the same points.
* `Walk.step_of_padsTo`, `Walk.points_of_padsTo` : a line does the same, and so does the walk.
* `Program.PadsTo.trace_eq` : the trace is the same.
-/

namespace Lathe

variable {α : Type}

namespace Program

/-- Program `p'` has the lines of `p` at the indices that `f` gives, in their order, and no other
line of it has words. -/
structure PadsTo (p : Program α) (f : Nat → Nat) (p' : Program α) : Prop where
  /-- Lines stay in order. -/
  strictMono : StrictMono f
  /-- Lines stay what they are. -/
  line_eq : ∀ i, p'.lines[f i]? = p.lines[i]?
  /-- A line with words is one of `p`. -/
  exists_index : ∀ j l, p'.lines[j]? = some l → l.isEmpty = false → ∃ i, f i = j

/-! ### Blocks -/

/-- The lines with words, each with its index. -/
def blocks (p : Program α) : List (Line α × Nat) :=
  p.lines.toList.zipIdx.filter fun li => !li.1.isEmpty

variable {f : Nat → Nat} {p p' : Program α}

theorem mem_zipIdx_iff {li : Line α × Nat} :
    li ∈ p.lines.toList.zipIdx ↔ p.lines[li.2]? = some li.1 := by
  rw [List.mem_zipIdx_iff_getElem?, Array.getElem?_toList]

theorem mem_blocks_iff {li : Line α × Nat} :
    li ∈ p.blocks ↔ p.lines[li.2]? = some li.1 ∧ li.1.isEmpty = false := by
  rw [blocks, List.mem_filter, mem_zipIdx_iff, Bool.not_eq_true']

theorem pairwise_zipIdx : p.lines.toList.zipIdx.Pairwise fun a b => a.2 < b.2 := by
  rw [← List.pairwise_map, List.zipIdx_map_snd]
  exact List.pairwise_lt_range' 1

/-- Lists of lines in the order of their indices are known by their members. -/
theorem eq_of_mem_iff {as bs : List (Line α × Nat)} (ha : as.Pairwise fun a b => a.2 < b.2)
    (hb : bs.Pairwise fun a b => a.2 < b.2) (h : ∀ li, li ∈ as ↔ li ∈ bs) : as = bs := by
  have : Std.Irrefl fun a b : Line α × Nat => a.2 < b.2 := ⟨fun a => Nat.lt_irrefl a.2⟩
  have : Std.Antisymm fun a b : Line α × Nat => a.2 < b.2 :=
    ⟨fun a b hab hba => absurd hab (Nat.lt_asymm hba)⟩
  exact ha.eq_of_mem_iff hb h

theorem pairwise_blocks : p.blocks.Pairwise fun a b => a.2 < b.2 :=
  pairwise_zipIdx.filter _

/-- **A padded program has the same blocks.** -/
theorem PadsTo.blocks_eq (h : p.PadsTo f p') : p'.blocks = p.blocks.map (Prod.map id f) := by
  refine eq_of_mem_iff pairwise_blocks ?_ fun ⟨l, j⟩ => ?_
  · exact List.pairwise_map.2 (pairwise_blocks.imp fun {a b} hab => h.strictMono hab)
  · rw [List.mem_map, mem_blocks_iff]
    constructor
    · rintro ⟨hl, hempty⟩
      obtain ⟨i, rfl⟩ := h.exists_index j l hl hempty
      rw [h.line_eq] at hl
      exact ⟨(l, i), mem_blocks_iff.2 ⟨hl, hempty⟩, rfl⟩
    · rintro ⟨⟨l', i⟩, hmem, heq⟩
      cases heq
      rw [h.line_eq]
      exact mem_blocks_iff.1 hmem

variable [Scalar α]

/-! ### Labels -/

theorem label?_of_isEmpty {l : Line α} (h : l.isEmpty = true) : l.label? = none := by
  rw [Line.isEmpty, List.isEmpty_iff] at h
  rw [Line.label?, Line.value?, h]
  rfl

theorem labels_eq_filterMap_blocks :
    p.labels = p.blocks.filterMap fun li => li.1.label?.map (·, li.2) := by
  rw [labels, blocks, List.filterMap_filter]
  refine congrArg (List.filterMap · _) (funext fun ⟨l, i⟩ => ?_)
  cases hempty : l.isEmpty with
  | true => simp [label?_of_isEmpty hempty]
  | false => simp

/-- **Labels name the same lines of a padded program**: of several with one label, the last. -/
theorem PadsTo.lineOf?_eq (h : p.PadsTo f p') (label : Nat) :
    p'.lineOf? label = (p.lineOf? label).map f := by
  have hlabels : p'.labels = p.labels.map (Prod.map id f) := by
    rw [labels_eq_filterMap_blocks, labels_eq_filterMap_blocks, h.blocks_eq, List.filterMap_map,
      List.map_filterMap]
    refine congrArg (List.filterMap · _) (funext fun ⟨l, i⟩ => ?_)
    simp [Function.comp_def]
  rw [lineOf?, lineOf?, hlabels, ← List.map_reverse, List.find?_map, Option.map_map, Option.map_map]
  rfl

end Program

/-! ### Contours -/

namespace Contour

variable {f : Nat → Nat} {p p' : Program α} {a b : Nat}

theorem pairwise_linesBetween : (linesBetween p a b).Pairwise fun a b => a.2 < b.2 :=
  Program.pairwise_zipIdx.drop.take

theorem mem_linesBetween_iff {li : Line α × Nat} :
    li ∈ linesBetween p a b ↔ p.lines[li.2]? = some li.1 ∧ a ≤ li.2 ∧ li.2 ≤ b := by
  obtain ⟨l, i⟩ := li
  rw [linesBetween, List.mem_iff_getElem?]
  simp only [List.getElem?_take, List.getElem?_drop, List.getElem?_zipIdx, Array.getElem?_toList]
  constructor
  · rintro ⟨k, hk⟩
    split_ifs at hk with hlt
    obtain ⟨l', hl', heq⟩ := Option.map_eq_some_iff.1 hk
    obtain ⟨rfl, rfl⟩ := Prod.mk.inj heq
    refine ⟨by simpa using hl', ?_, ?_⟩ <;> omega
  · rintro ⟨hl, ha, hb⟩
    refine ⟨i - a, ?_⟩
    rw [if_pos (by omega), show a + (i - a) = i by omega, hl]
    simp

/-- The blocks of a range of lines. -/
theorem filter_linesBetween :
    (linesBetween p a b).filter (fun li => !li.1.isEmpty) =
      p.blocks.filter fun li => a ≤ li.2 ∧ li.2 ≤ b := by
  refine Program.eq_of_mem_iff (pairwise_linesBetween.filter _) (Program.pairwise_blocks.filter _)
    fun li => ?_
  simp only [List.mem_filter, mem_linesBetween_iff, Program.mem_blocks_iff, Bool.not_eq_true',
    decide_eq_true_eq]
  tauto

variable [Scalar α]

theorem Tracing.step_of_isEmpty {s : ArcSettings α} {t : Tracing α} {l : Line α} {i : Nat}
    (h : l.isEmpty = true) : t.step s l i = (t, []) := by
  rw [Line.isEmpty, List.isEmpty_iff] at h
  rw [step, if_neg]
  simp [Line.hasAxis, Line.has, h]

/-- Lines without words are not on a contour. -/
theorem ofLines_filter (s : ArcSettings α) (t : Tracing α) (lines : List (Line α × Nat)) :
    ofLines s t (lines.filter fun li => !li.1.isEmpty) = ofLines s t lines := by
  induction lines generalizing t with
  | nil => rfl
  | cons li rest ih =>
    cases hempty : li.1.isEmpty with
    | true =>
      rw [List.filter_cons_of_neg (by simp [hempty]), ih, ofLines, Tracing.step_of_isEmpty hempty]
      rfl
    | false =>
      rw [List.filter_cons_of_pos (by simp [hempty]), ofLines, ofLines]
      exact congrArg (_ ++ ·) (ih _)

/-- **A contour has the same points in a padded program.** -/
theorem between_of_padsTo (h : p.PadsTo f p') (s : ArcSettings α) (first last : Nat) :
    between s p' first last = (between s p first last).map (·.map (·.renumber f)) := by
  have hlines : ∀ a b, ofLines s .initial (linesBetween p' (f a) (f b)) =
      (ofLines s .initial (linesBetween p a b)).map (·.renumber f) := by
    intro a b
    rw [← ofLines_filter, filter_linesBetween, h.blocks_eq, List.filter_map, ofLines_renumber,
      ← ofLines_filter s _ (linesBetween p a b), filter_linesBetween]
    simp [Function.comp_def, h.strictMono.le_iff_le]
  unfold between resolve
  rw [h.lineOf?_eq, h.lineOf?_eq]
  cases p.lineOf? first with
  | none => rfl
  | some a =>
    cases p.lineOf? last with
    | none => rfl
    | some b => exact congrArg Except.ok (hlines a b)

end Contour

/-! ### The walk -/

/-- What a line leads to under another index. -/
def Walk.Outcome.renumber (f : Nat → Nat) (o : Walk.Outcome α) : Walk.Outcome α :=
  ⟨o.state, o.points.map (·.renumber f), o.resume.map f⟩

namespace Walk

variable [Scalar α] {f : Nat → Nat} {p p' : Program α}

theorem contour?_of_padsTo (h : p.PadsTo f p') (t : Tuning α) (l : Line α) :
    contour? t p' l = (contour? t p l).map (·.map (·.renumber f)) := by
  have hmap : ∀ (labels : Nat × Nat), (Contour.between t.arc p' labels.1 labels.2).toOption =
      (Contour.between t.arc p labels.1 labels.2).toOption.map (·.map (·.renumber f)) := by
    intro labels
    rw [Contour.between_of_padsTo h]
    cases Contour.between t.arc p labels.1 labels.2 <;> rfl
  unfold contour?
  cases l.cycleLabels with
  | error e => rfl
  | ok labels => exact hmap labels

theorem resumeLine?_of_padsTo (h : p.PadsTo f p') (l : Line α) :
    resumeLine? p' l = (resumeLine? p l).map f := by
  unfold resumeLine?
  cases l.cycleLabels.toOption with
  | none => rfl
  | some labels => exact h.lineOf?_eq labels.2

theorem move_renumber (t : Tuning α) (s : State α) (l : Line α) (i : Nat) :
    move t s l (f i) = (move t s l i).renumber f := by
  unfold move
  dsimp only
  split_ifs
  · rfl
  · simp [Outcome.renumber, Function.comp_def, Point.renumber, Point.make]

theorem rough_of_padsTo (h : p.PadsTo f p') (t : Tuning α) (s : State α) (l : Line α) (i : Nat) :
    rough t p' s l (f i) = (rough t p s l i).renumber f := by
  unfold rough
  rw [contour?_of_padsTo h, resumeLine?_of_padsTo h]
  match contour? t p l with
  | none | some [] | some [a] => rfl
  | some (a :: b :: rest) =>
    have hexpand := (roughing t s.modal l).expand_renumber f t.cycle (a :: b :: rest)
      ⟨s.block, i, l.aux?⟩
    simp only [List.map_cons, CycleLine.renumber, Option.map_some] at hexpand ⊢
    rw [hexpand]
    rfl

theorem finish_of_padsTo (h : p.PadsTo f p') (t : Tuning α) (s : State α) (l : Line α) (i : Nat) :
    finish t p' s l (f i) = (finish t p s l i).renumber f := by
  unfold finish
  rw [contour?_of_padsTo h]
  cases contour? t p l with
  | none => rfl
  | some contour =>
    have hexpand := (Finishing.mk s.modal.position s.modal.feed).expand_renumber
      ⟨s.block, i, l.aux?⟩ h.strictMono.injective contour
    simp only [CycleLine.renumber, Option.map_some] at hexpand ⊢
    rw [hexpand]
    rfl

theorem perform_of_padsTo (h : p.PadsTo f p') (t : Tuning α) (s : State α) (l : Line α)
    (i : Nat) : perform t p' s l (f i) = (perform t p s l i).renumber f := by
  unfold perform
  cases l.action with
  | mark code => rfl
  | announce depth => rfl
  | rough => exact rough_of_padsTo h t s l i
  | finish => exact finish_of_padsTo h t s l i
  | move => exact move_renumber t s l i
  | nothing => rfl

/-- **A line does the same in a padded program.** -/
theorem step_of_padsTo (h : p.PadsTo f p') (t : Tuning α) (s : State α) (l : Line α) (i : Nat) :
    step t p' s l (f i) = (step t p s l i).renumber f := by
  unfold step
  dsimp only
  split_ifs
  · rfl
  · exact perform_of_padsTo h t (s.entering l) l i
  · unfold start
    split_ifs <;> rfl

theorem step_of_isEmpty {t : Tuning α} {s : State α} {l : Line α} {i : Nat}
    (h : l.isEmpty = true) : step t p s l i = .quiet s := by
  rw [step, if_pos h]

omit [Scalar α] in
/-- The walk goes on in front of the same line. -/
theorem next_renumber_le_iff (hf : StrictMono f) (o : Outcome α) (i k : Nat) :
    (o.renumber f).next (f i) ≤ f k ↔ o.next i ≤ k := by
  have hresume : (o.renumber f).resume.getD (f i) = f (o.resume.getD i) := by
    rw [Outcome.renumber, Option.getD_map]
  rw [Outcome.next, Outcome.next, hresume]
  change max _ _ + 1 ≤ _ ↔ _
  rw [← hf.monotone.map_max]
  exact hf.lt_iff_lt

/-- **The walk over a padded program gives the same points.**  In the padded program it may start
at any line without words that stands in front of the line. -/
theorem points_of_padsTo (h : p.PadsTo f p') (t : Tuning α) (s : State α) (j : Nat) :
    ∀ i, (∀ k, j ≤ f k ↔ i ≤ k) →
      (visitsFrom t p' s j).flatMap (·.outcome.points) =
        ((visitsFrom t p s i).flatMap (·.outcome.points)).map (·.renumber f) := by
  fun_induction visitsFrom t p' s j with
  | case1 s j hlt line o ih =>
    intro i hij
    have hline : p'.lines[j]? = some line := Array.getElem?_eq_getElem hlt
    by_cases hj : ∃ k, f k = j
    -- the line is one of the other program: both walks take it
    · obtain ⟨k, rfl⟩ := hj
      have hle : k ≤ i := h.strictMono.le_iff_le.1 ((hij i).2 le_rfl)
      obtain rfl : i = k := Nat.le_antisymm ((hij k).1 le_rfl) hle
      rw [h.line_eq] at hline
      obtain ⟨hi, hget⟩ := Array.getElem?_eq_some_iff.1 hline
      have ho : o = (step t p s line i).renumber f := step_of_padsTo h t s line i
      rw [visitsFrom_of_lt hi, hget, List.flatMap_cons, List.flatMap_cons, List.map_append, ho]
      congr 1
      rw [ho] at ih
      exact ih _ (next_renumber_le_iff h.strictMono _ i)
    -- the line has no words: only the walk over the padded program takes it
    · have hempty : line.isEmpty = true := by
        by_contra hne
        exact hj (h.exists_index j line hline (Bool.not_eq_true _ ▸ hne))
      have ho : o = .quiet s := step_of_isEmpty hempty
      rw [List.flatMap_cons, ho]
      rw [ho] at ih
      refine ih i fun k => ?_
      rw [← hij k]
      have hne : f k ≠ j := fun heq => hj ⟨k, heq⟩
      simp only [Outcome.next, Outcome.quiet, Option.getD_none]
      change max j j + 1 ≤ f k ↔ j ≤ f k
      omega
  | case2 s j hge =>
    intro i hij
    have hnone : p.lines[i]? = none := by
      rw [← h.line_eq, Array.getElem?_eq_none_iff]
      have := (hij i).2 le_rfl
      omega
    rw [visitsFrom_of_le (Array.getElem?_eq_none_iff.1 hnone)]
    rfl

end Walk

/-- **A padded program has the same trace**, but for the indices of lines. -/
theorem Program.PadsTo.trace_eq [Scalar α] {f : Nat → Nat} {p p' : Program α}
    (h : p.PadsTo f p') (t : Tuning α) : p'.trace t = (p.trace t).renumber f := by
  have hpoints : Walk.points t p' = (Walk.points t p).map (·.renumber f) := by
    refine Walk.points_of_padsTo h t .initial 0 0 fun k => ?_
    simp
  rw [trace, hpoints, Subdivision.subdivide_renumber]
  rfl

end Lathe
