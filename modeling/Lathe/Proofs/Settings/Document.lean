import Lathe.Proofs.Document.Decode
import Lathe.Proofs.Settings.Templates
import Lathe.Settings.Document

/-!
# Configurations read back from their documents

Each record is read back from its own document, unless one of its real numbers is lost: a field
that is there but gives no number is refused, it does not take its standard value
(`Config.ofValue?_losing`).
-/

namespace Lathe

open Document (Value Schema Field)

variable (lost : Float → Bool) (longLists : Bool)

/-! ### The records -/

/-- The real numbers of arc settings. -/
def ArcSettings.reals (s : ArcSettings Float) : List Float :=
  [s.maxAngleStep, s.minChord, s.minRadius, s.radiusTolerance]

theorem ArcSettings.read_losing (s : ArcSettings Float) :
    schema.read longLists (s.toValue.losing lost) = if s.reals.any lost then none else some s := by
  have hvalue : s.toValue.losing lost = .table ((schema.fields.map Field.name).zip
      [.int s.minPoints.toNat, (Value.real s.maxAngleStep).losing lost,
        (Value.real s.minChord).losing lost, (Value.real s.minRadius).losing lost,
        (Value.real s.radiusTolerance).losing lost]) := by
    simp [toValue, schema, Field.of, Value.losing, Document.entriesLosing]
  rw [hvalue, schema.read_table_zip true longLists (by decide) rfl]
  simp only [schema, Schema.putItems_word64, Schema.putItems_real, Schema.putItems_nil, reals,
    List.any_cons, List.any_nil, Bool.or_false]
  split_ifs <;> simp_all

/-- The real numbers of cycle settings. -/
def CycleSettings.reals (s : CycleSettings Float) : List Float :=
  [s.depth, s.retract, s.roughFeed, s.faceTolerance, s.interpolationTolerance]

theorem CycleSettings.read_losing (s : CycleSettings Float) :
    schema.read longLists (s.toValue.losing lost) = if s.reals.any lost then none else some s := by
  have hvalue : s.toValue.losing lost = .table ((schema.fields.map Field.name).zip
      (s.reals.map fun x => (Value.real x).losing lost)) := by
    simp [toValue, schema, reals, Field.of, Value.losing, Document.entriesLosing]
  rw [hvalue, schema.read_table_zip true longLists (by decide) rfl]
  simp only [schema, Schema.putItems_real, Schema.putItems_nil, reals, List.map_cons, List.map_nil,
    List.any_cons, List.any_nil, Bool.or_false]
  split_ifs <;> simp_all

/-- The real numbers of a tuning. -/
def Tuning.reals (t : Tuning Float) : List Float := t.maxStep :: (t.arc.reals ++ t.cycle.reals)

theorem Tuning.read_losing (t : Tuning Float) :
    (schema longLists).read longLists (t.toValue.losing lost) =
      if t.reals.any lost then none else some t := by
  have hvalue : t.toValue.losing lost = .table (((schema longLists).fields.map Field.name).zip
      [(Value.real t.maxStep).losing lost, t.arc.toValue.losing lost,
        t.cycle.toValue.losing lost]) := by
    simp [toValue, schema, Field.of, Value.losing, Document.entriesLosing]
  rw [hvalue, (schema longLists).read_table_zip true longLists (by simp [schema, Field.of]) rfl]
  simp only [schema, Schema.putItems_real, Schema.putItems_nil,
    Schema.putItems_of _ _ _ _ (t.arc.read_losing lost longLists),
    Schema.putItems_of _ _ _ _ (t.cycle.read_losing lost longLists), reals, List.any_cons,
    List.any_append]
  cases lost t.maxStep <;> cases t.arc.reals.any lost <;> cases t.cycle.reals.any lost <;> rfl

/-- The real numbers of a speed curve. -/
def SpeedCurve.reals (c : SpeedCurve Float) : List Float := [c.base, c.normalization]

theorem SpeedCurve.read_losing (c : SpeedCurve Float) :
    schema.read longLists (c.toValue.losing lost) = if c.reals.any lost then none else some c := by
  have hvalue : c.toValue.losing lost = .table ((schema.fields.map Field.name).zip
      [(Value.real c.base).losing lost, .int c.rawMax.toNat,
        (Value.real c.normalization).losing lost, .int c.defaultRaw.toNat]) := by
    simp [toValue, schema, Field.of, Value.losing, Document.entriesLosing]
  rw [hvalue, schema.read_table_zip true longLists (by decide) rfl]
  simp only [schema, Schema.putItems_real, Schema.putItems_word32, Schema.putItems_nil, reals,
    List.any_cons, List.any_nil, Bool.or_false]
  split_ifs <;> simp_all

/-- The real numbers of settings of playback. -/
def PlaybackSettings.reals (s : PlaybackSettings Float) : List Float := s.baseStep :: s.curve.reals

theorem PlaybackSettings.read_losing (s : PlaybackSettings Float) :
    (schema longLists).read longLists (s.toValue.losing lost) =
      if s.reals.any lost then none else some s := by
  have hvalue : s.toValue.losing lost = .table (((schema longLists).fields.map Field.name).zip
      [(Value.real s.baseStep).losing lost, .int s.tickInterval.toNat, .bool s.singleBlock,
        .bool s.optionalStop, s.curve.toValue.losing lost]) := by
    simp [toValue, schema, Field.of, Value.losing, Document.entriesLosing]
  rw [hvalue, (schema longLists).read_table_zip true longLists (by simp [schema, Field.of]) rfl]
  simp only [schema, Schema.putItems_real, Schema.putItems_word64, Schema.putItems_bool,
    Schema.putItems_nil, Schema.putItems_of _ _ _ _ (s.curve.read_losing lost longLists), reals,
    List.any_cons]
  by_cases hbase : lost s.baseStep = true
  · simp [hbase]
  · by_cases hcurve : s.curve.reals.any lost = true <;> simp [hbase, hcurve]

/-! ### Templates -/

theorem Templates.toValue_losing (t : Templates) : t.toValue.losing lost = t.toValue := by
  have hentries : ∀ es : List (String × String),
      Document.entriesLosing lost (es.map fun e => (e.1, .text e.2)) =
        es.map fun e => (e.1, .text e.2) := by
    intro es
    induction es with
    | nil => rfl
    | cons e es ih => rw [List.map_cons, Document.entriesLosing, ih, Value.losing]
  rw [toValue, Value.losing]
  exact congrArg Value.table (hentries t.entries)

/-- A library is read back with the built-in template. -/
theorem Templates.ofValue?_toValue (t : Templates) : ofValue? t.toValue = some t.completed := by
  have hstored : ∀ es : List (String × String),
      (es.map fun e => (e.1, Value.text e.2)).mapM entryOf? = some es := by
    intro es
    induction es with
    | nil => rfl
    | cons e es ih => rw [List.map_cons, List.mapM_cons, ih]; rfl
  have hentries : (t.entries.map fun e => (e.1, Value.text e.2)).mapM entryOf? = some t.entries :=
    hstored t.entries
  rw [ofValue?, toValue, Value.entries?]
  simp [hentries, insertAll_builtin, Except.toOption]

/-! ### The configuration -/

namespace Config

/-- The real numbers of a configuration. -/
def reals (c : Config) : List Float := c.tuning.reals ++ c.playback.reals

/-- **A configuration is read back from its document unless one of its real numbers is lost**, and
its library is completed. -/
theorem ofValue?_losing (c : Config) :
    ofValue? longLists (c.toValue.losing lost) =
      if c.reals.any lost then none else some { c with templates := c.templates.completed } := by
  have hvalue : c.toValue.losing lost = .table (((schema longLists).fields.map Field.name).zip
      [c.tuning.toValue.losing lost, c.playback.toValue.losing lost, c.templates.toValue]) := by
    simp [toValue, schema, Field.of, Value.losing, Document.entriesLosing, Templates.toValue_losing]
  have htemplates : Templates.ofValue? c.templates.toValue =
      if false then none else some c.templates.completed := c.templates.ofValue?_toValue
  rw [ofValue?, hvalue,
    (schema longLists).read_table_zip true longLists (by simp [schema, Field.of]) rfl]
  simp only [schema, Schema.putItems_nil,
    Schema.putItems_of _ _ _ _ (c.tuning.read_losing lost longLists),
    Schema.putItems_of _ _ _ _ (c.playback.read_losing lost longLists),
    Schema.putItems_of _ _ _ _ htemplates, reals, List.any_append]
  cases c.tuning.reals.any lost <;> cases c.playback.reals.any lost <;> rfl

end Config

end Lathe
