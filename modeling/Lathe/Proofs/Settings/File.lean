import Lathe.Proofs.Document.Toml
import Lathe.Proofs.Settings.Document
import Lathe.Proofs.Storage.Write
import Lathe.Settings.File

/-!
# Loading what has been saved

A configuration that is saved is read from the same file again, with its library completed
(`Config.load_of_save`).  The one exception are settings that are not finite in a JSON file: JSON
has no form for them, so `null` is written in their place, and loading refuses it.  The check before
saving lets such settings through where it only asks for a sign or for nothing at all
(`Config.unchecked`).
-/

namespace Lathe

open Document (Value)

/-! ### The formats -/

namespace ConfigFormat

/-- The format has no form for this real number. -/
def loses : ConfigFormat → Float → Bool
  | json => Document.Json.loses
  | toml => fun _ => false

/-- A real number is read back from its own text, if it has one. -/
def KeepsReal : ConfigFormat → Float → Prop
  | json => fun x => x.isFinite = true → Document.Json.KeepsReal x
  | toml => Document.Toml.KeepsReal

instance (format : ConfigFormat) (x : Float) : Decidable (format.KeepsReal x) :=
  match format with
  | json => inferInstanceAs (Decidable (x.isFinite = true → Document.Json.KeepsReal x))
  | toml => inferInstanceAs (Decidable (Document.Toml.KeepsReal x))

end ConfigFormat

namespace Config

theorem forall_mem_reals_iff {c : Config} {P : Float → Prop} :
    (∀ x ∈ c.reals, P x) ↔
      P c.tuning.maxStep ∧
      (P c.tuning.arc.maxAngleStep ∧ P c.tuning.arc.minChord ∧ P c.tuning.arc.minRadius ∧
        P c.tuning.arc.radiusTolerance) ∧
      (P c.tuning.cycle.depth ∧ P c.tuning.cycle.retract ∧ P c.tuning.cycle.roughFeed ∧
        P c.tuning.cycle.faceTolerance ∧ P c.tuning.cycle.interpolationTolerance) ∧
      P c.playback.baseStep ∧ P c.playback.curve.base ∧ P c.playback.curve.normalization := by
  simp [reals, Tuning.reals, ArcSettings.reals, CycleSettings.reals, PlaybackSettings.reals,
    SpeedCurve.reals, and_assoc]

section

-- the documents of settings, field by field
attribute [local simp] toValue Tuning.toValue ArcSettings.toValue CycleSettings.toValue
  PlaybackSettings.toValue SpeedCurve.toValue

theorem keeps_json {c : Config} (h : ∀ x ∈ c.reals, ConfigFormat.json.KeepsReal x) :
    Document.Json.Keeps c.toValue := by
  have hword : ∀ n < Nat.pow 2 64, Document.Json.Keeps (.int n) := by
    intro n hn
    exact ⟨by omega, by exact_mod_cast hn⟩
  have hword32 : ∀ n : UInt32, Document.Json.Keeps (.int n.toNat) := fun n =>
    hword n.toNat (Nat.lt_trans n.toNat_lt (by decide))
  have hword64 : ∀ n : UInt64, Document.Json.Keeps (.int n.toNat) := fun n =>
    hword n.toNat n.toNat_lt
  have hbool : ∀ b, Document.Json.Keeps (.bool b) := fun _ => trivial
  have htemplates : Document.Json.Keeps c.templates.toValue := by
    rw [Templates.toValue, Document.Json.keeps_table_iff]
    intro e he
    obtain ⟨stored, -, rfl⟩ := List.mem_map.1 he
    trivial
  have hreal : ∀ x ∈ c.reals, Document.Json.Keeps (.real x) := h
  rw [forall_mem_reals_iff] at hreal
  simp [Document.Json.keeps_table_iff, hword32, hword64, hbool, htemplates, hreal]

/-- Nothing of a configuration is lost where no real number is. -/
theorem toValue_losing (c : Config) : c.toValue.losing (fun _ => false) = c.toValue := by
  have htemplates := c.templates.toValue_losing fun _ => false
  simp [Value.losing, Document.entriesLosing, htemplates]

/-- The entries of a configuration are kept by TOML, and in their order. -/
theorem keeps_toml {c : Config} (h : ∀ x ∈ c.reals, Document.Toml.KeepsReal x) :
    ∃ entries, c.toValue = .table entries ∧ Document.Toml.Keeps entries ∧
      Document.Toml.inToml entries = entries := by
  have hleaf : ∀ e ∈ c.templates.entries.map fun e => (e.1, Value.text e.2),
      Document.Toml.KeepsLeaf e.2 := by
    intro e he
    obtain ⟨stored, -, rfl⟩ := List.mem_map.1 he
    trivial
  obtain ⟨htemplates, hkeeps⟩ := Document.Toml.inToml_of_keepsLeaf hleaf
  have hids : (c.templates.entries.map (Prod.fst ∘ fun e => (e.1, Value.text e.2))).Nodup :=
    c.templates.nodup_ids
  rw [forall_mem_reals_iff] at h
  refine ⟨_, rfl, ⟨by simp, ?_⟩, ?_⟩
  · simp [Templates.toValue, Document.Toml.KeepsEntries, Document.Toml.KeepsLeaf,
      Document.Toml.nestingLimit, h, hkeeps, hids]
  · rw [Document.Toml.inToml] at htemplates ⊢
    simp [Templates.toValue, Document.Toml.ownEntries, Document.Toml.innerEntries,
      Document.Toml.entriesToValues, Document.Toml.Node.toValue, htemplates]

end

end Config

/-- **A configuration is read back from its text unless the format loses one of its real
numbers.** -/
theorem ConfigFormat.read?_of_print? {format : ConfigFormat} {c : Config} {text : String}
    (h : format.print? c = some text) (hreals : ∀ x ∈ c.reals, format.KeepsReal x) :
    format.read? text = if c.reals.any format.loses then none
      else some { c with templates := c.templates.completed } := by
  cases format with
  | json =>
    obtain rfl := Option.some.inj h
    rw [read?, Document.Json.read?_pretty (Config.keeps_json hreals), Option.bind_some]
    exact c.ofValue?_losing _ false
  | toml =>
    obtain ⟨entries, hvalue, hkeeps, hsame⟩ := Config.keeps_toml hreals
    have hprint : Document.Toml.print? (.table entries) = some text := by rw [← hvalue]; exact h
    have hread := c.ofValue?_losing (fun _ => false) true
    rw [c.toValue_losing, hvalue] at hread
    rw [read?, Document.Toml.read?_print? hprint hkeeps, hsame, Option.bind_some]
    exact hread

/-! ### The check before saving -/

theorem isFinite_of_isPositive {x : Float} (h : Scalar.isPositive x = true) : x.isFinite = true :=
  (Bool.and_eq_true_iff.1 h).1

theorem Tuning.isFinite_of_fault? {t : Tuning Float} (h : t.fault? = none) :
    t.maxStep.isFinite = true ∧ t.arc.maxAngleStep.isFinite = true ∧
      t.cycle.depth.isFinite = true := by
  unfold fault? at h
  split_ifs at h with hstep hpoints hangle hdepth
  simp only [Bool.not_eq_true', Bool.not_eq_false] at hstep hangle hdepth
  exact ⟨isFinite_of_isPositive hstep, isFinite_of_isPositive hangle,
    isFinite_of_isPositive hdepth⟩

theorem SpeedCurve.isFinite_of_fault? {c : SpeedCurve Float} (h : c.fault? = none) :
    c.base.isFinite = true ∧ c.normalization.isFinite = true := by
  unfold fault? at h
  split_ifs at h with hbase hmax hnormalization
  simp only [Bool.not_eq_true', Bool.not_eq_false] at hbase hnormalization
  exact ⟨(Bool.and_eq_true_iff.1 hbase).1, isFinite_of_isPositive hnormalization⟩

theorem PlaybackSettings.isFinite_of_fault? {s : PlaybackSettings Float} (h : s.fault? = none) :
    s.baseStep.isFinite = true ∧ s.curve.base.isFinite = true ∧
      s.curve.normalization.isFinite = true := by
  unfold fault? at h
  split_ifs at h with hstep htick
  simp only [Bool.not_eq_true', Bool.not_eq_false] at hstep
  exact ⟨isFinite_of_isPositive hstep, SpeedCurve.isFinite_of_fault? (Option.map_eq_none_iff.1 h)⟩

namespace Config

/-- The real numbers that the check does not ask to be finite: the tolerances, and what cycles
retract and feed by. -/
def unchecked (c : Config) : List Float :=
  [c.tuning.arc.minChord, c.tuning.arc.minRadius, c.tuning.arc.radiusTolerance,
    c.tuning.cycle.retract, c.tuning.cycle.roughFeed, c.tuning.cycle.faceTolerance,
    c.tuning.cycle.interpolationTolerance]

/-- The check asks all other real numbers to be finite. -/
theorem any_loses_of_fault? {c : Config} (h : c.fault? = none) :
    c.reals.any Document.Json.loses = c.unchecked.any Document.Json.loses := by
  have htuning : c.tuning.fault? = none := by
    unfold fault? at h
    cases hfault : c.tuning.fault? with
    | none => rfl
    | some fault => simp [hfault] at h
  have hplayback : c.playback.fault? = none := by
    unfold fault? at h
    simpa [htuning] using h
  obtain ⟨hstep, hangle, hdepth⟩ := Tuning.isFinite_of_fault? htuning
  obtain ⟨hbase, hcurve, hnormalization⟩ := PlaybackSettings.isFinite_of_fault? hplayback
  simp [reals, Tuning.reals, ArcSettings.reals, CycleSettings.reals, PlaybackSettings.reals,
    SpeedCurve.reals, unchecked, Document.Json.loses, hstep, hangle, hdepth, hbase, hcurve,
    hnormalization]

/-! ### Loading -/

theorem checked_eq_ok_iff {c c' : Config} : c.checked = .ok c' ↔ c.fault? = none ∧ c' = c := by
  unfold checked
  cases c.fault? with
  | some fault => simp
  | none => simp [eq_comm]

/-- What a successful save has gone through, and what the file holds then. -/
theorem of_save {c : Config} {s s' : Storage} {path : String} {format : ConfigFormat}
    (hformat : ConfigFormat.ofPath path = .ok format) (h : c.save s path = .ok s') :
    c.fault? = none ∧ ∃ text, format.print? c = some text ∧ s'.read path = .ok text := by
  unfold save at h
  obtain ⟨c', hchecked, hsave⟩ := exists_of_bind_eq_ok h
  obtain ⟨format', hformat', hprint⟩ := exists_of_bind_eq_ok hsave
  obtain ⟨text, htext, hstore⟩ := exists_of_bind_eq_ok hprint
  obtain ⟨hfault, rfl⟩ := checked_eq_ok_iff.1 hchecked
  obtain rfl : format' = format := Except.ok.inj (hformat'.symm.trans hformat)
  refine ⟨hfault, text, ?_, ?_⟩
  · cases hprinted : format'.print? c' with
    | none =>
      rw [hprinted] at htext
      cases htext
    | some printed =>
      rw [hprinted] at htext
      exact congrArg some (Except.ok.inj htext)
  · cases hwrite : s.write path text with
    | error e =>
      rw [hwrite] at hstore
      cases hstore
    | ok written =>
      rw [hwrite] at hstore
      obtain rfl := Except.ok.inj hstore
      exact Storage.read_of_write hwrite

/-- A configuration differs from a sound one in its templates only, so it is sound. -/
theorem checked_templates {c : Config} (h : c.fault? = none) (t : Templates) :
    checked { c with templates := t } = .ok { c with templates := t } :=
  checked_eq_ok_iff.2 ⟨h, rfl⟩

/-- What loading comes to once the file has been read. -/
theorem load_of_read {s : Storage} {path text : String} {format : ConfigFormat}
    (hformat : ConfigFormat.ofPath path = .ok format) (hread : s.read path = .ok text) :
    load s path = match format.read? text with
      | some c => c.checked
      | none => .error (.malformed format) := by
  rw [load, hformat, hread]
  show (do let c ← orElse (.malformed format) (format.read? text); c.checked) = _
  cases format.read? text <;> rfl

/-- **What has been saved is loaded, but for settings that are not finite in a JSON file.** -/
theorem load_of_save {c : Config} {s s' : Storage} {path : String} {format : ConfigFormat}
    (hformat : ConfigFormat.ofPath path = .ok format) (hsave : c.save s path = .ok s')
    (hreals : ∀ x ∈ c.reals, format.KeepsReal x) :
    load s' path =
      if format = .json ∧ ∃ x ∈ c.unchecked, x.isFinite = false then .error (.malformed .json)
      else .ok { c with templates := c.templates.completed } := by
  obtain ⟨hfault, text, hprint, hread⟩ := of_save hformat hsave
  rw [load_of_read hformat hread, ConfigFormat.read?_of_print? hprint hreals]
  have hchecked := checked_templates hfault c.templates.completed
  cases format with
  | toml => simp [ConfigFormat.loses, hchecked]
  | json =>
    have hlost := any_loses_of_fault? hfault
    have hiff : c.unchecked.any Document.Json.loses = true ↔
        ∃ x ∈ c.unchecked, x.isFinite = false := by
      simp [List.any_eq_true, Document.Json.loses]
    rw [ConfigFormat.loses, hlost]
    by_cases h : ∃ x ∈ c.unchecked, x.isFinite = false
    · rw [if_pos (hiff.2 h), if_pos ⟨rfl, h⟩]
    · rw [if_neg (mt hiff.1 h), if_neg (fun hand => h hand.2)]
      exact hchecked

theorem format_json : ConfigFormat.ofPath "turnkit.json" = .ok .json := rfl

/-- A sound configuration can be saved where there is no file yet. -/
theorem exists_save {c : Config} (h : c.fault? = none) :
    ∃ s', c.save .empty "turnkit.json" = .ok s' := by
  have hwrite : ∀ text, Storage.empty.write "turnkit.json" text =
      .ok ⟨[(["turnkit.json"], text)], []⟩ := fun _ => rfl
  refine ⟨⟨[(["turnkit.json"], Document.Json.pretty c.toValue)], []⟩, ?_⟩
  rw [save, checked_eq_ok_iff.2 ⟨h, rfl⟩]
  show ofStorage (Storage.empty.write "turnkit.json" (Document.Json.pretty c.toValue)) = _
  rw [hwrite]
  rfl

/-- The standard configuration is loaded as it has been saved. -/
theorem load_of_save_standard :
    ∃ s', standard.save .empty "turnkit.json" = .ok s' ∧ load s' "turnkit.json" = .ok standard := by
  have hfault : standard.fault?.isNone = true := by decide +kernel
  obtain ⟨s', hsave⟩ := exists_save (Option.isNone_iff_eq_none.1 hfault)
  have hload := load_of_save format_json hsave (by decide +kernel)
  rw [if_neg (by decide +kernel)] at hload
  exact ⟨s', hsave, hload⟩

/-- The standard configuration with a tolerance that is not finite. -/
def boundless : Config :=
  { standard with tuning := { Tuning.standard with cycle :=
    { CycleSettings.standard with faceTolerance := 1.0 / 0.0 } } }

/-- Saved as JSON, a tolerance that is not finite cannot be loaded, though every real number that
has a text is read back from it. -/
theorem not_load_of_save_boundless :
    (∀ x ∈ boundless.reals, ConfigFormat.json.KeepsReal x) ∧
      ∃ s', boundless.save .empty "turnkit.json" = .ok s' ∧
        load s' "turnkit.json" = .error (.malformed .json) := by
  have hreals : ∀ x ∈ boundless.reals, ConfigFormat.json.KeepsReal x := by decide +kernel
  have hfault : boundless.fault?.isNone = true := by decide +kernel
  have hlost : boundless.reals.any ConfigFormat.json.loses = true := by decide +kernel
  obtain ⟨s', hsave⟩ := exists_save (Option.isNone_iff_eq_none.1 hfault)
  obtain ⟨-, text, hprint, hread⟩ := of_save format_json hsave
  refine ⟨hreals, s', hsave, ?_⟩
  rw [load_of_read format_json hread, ConfigFormat.read?_of_print? hprint hreals,
    if_pos hlost]

end Config

end Lathe
