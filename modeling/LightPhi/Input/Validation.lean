import LightPhi.Base.Checked
import LightPhi.Input.Source
import Mathlib.Tactic.Tauto

/-! One observation against the capabilities its source reports. -/
namespace LightPhi.Input
open Base

inductive InputSampleField where
  | None | Id | Corrects | Origin | TimeNanoseconds | X | Y | Pressure | TiltXRadians
  | TiltYRadians | TwistRadians | Eraser | Hovering
  deriving DecidableEq, Repr

inductive SampleValidationReason where
  | ZeroIdentity | MissingCorrectionIdentity | UnexpectedCorrectionIdentity | UnsupportedOrigin
  | NonFiniteValue | PressureOutOfRange | MissingCapability
  deriving DecidableEq, Repr

structure SampleValidationError where
  reason : SampleValidationReason := .ZeroIdentity
  field : InputSampleField := .None
  requiredCapability : InputCapability := .None
  deriving DecidableEq, Repr

def requireFinite (value : Binary64) (field : InputSampleField) :
    Except SampleValidationError Unit :=
  if value.isFinite then .ok () else .error ⟨.NonFiniteValue, field, .None⟩

def requireCapability (capabilities : InputSourceCapabilities) (populated : Bool)
    (field : InputSampleField) (capability : InputCapability) :
    Except SampleValidationError Unit :=
  if populated && !supports capabilities capability then
    .error ⟨.MissingCapability, field, capability⟩
  else .ok ()

def numericFields (sample : InputSample) : List (Binary64 × InputSampleField) :=
  [(sample.x, .X), (sample.y, .Y), (sample.pressure, .Pressure),
    (sample.tiltXRadians, .TiltXRadians), (sample.tiltYRadians, .TiltYRadians),
    (sample.twistRadians, .TwistRadians)]

/- Which fields a sample populates, in the order they are checked, and what each needs. -/
def requirements (sample : InputSample) : List (Bool × InputSampleField × InputCapability) :=
  [(sample.pressure.ne .zero, .Pressure, .Pressure),
    (sample.timeNanoseconds != 0, .TimeNanoseconds, .Timestamp),
    (sample.tiltXRadians.ne .zero, .TiltXRadians, .Tilt),
    (sample.tiltYRadians.ne .zero, .TiltYRadians, .Tilt),
    (sample.twistRadians.ne .zero, .TwistRadians, .Twist),
    (sample.eraser, .Eraser, .Eraser),
    (sample.hovering, .Hovering, .Hover),
    (sample.origin == .Coalesced, .Origin, .Coalescing),
    (sample.origin == .Predicted, .Origin, .Prediction),
    (sample.origin == .Corrected, .Origin, .Correction)]

def requireFiniteFields (sample : InputSample) : Except SampleValidationError Unit :=
  forM (numericFields sample) fun (value, field) => requireFinite value field

def requireReported (sample : InputSample) (capabilities : InputSourceCapabilities) :
    Except SampleValidationError Unit :=
  forM (requirements sample) fun (populated, field, capability) =>
    requireCapability capabilities populated field capability

def validate (sample : InputSample) (capabilities : InputSourceCapabilities) :
    Except SampleValidationError Unit :=
  if sample.id.value = 0 then
    .error ⟨.ZeroIdentity, .Id, .None⟩
  else if sample.origin = .Corrected ∧ sample.corrects.value = 0 then
    .error ⟨.MissingCorrectionIdentity, .Corrects, .None⟩
  else if sample.origin ≠ .Corrected ∧ sample.corrects.value ≠ 0 then
    .error ⟨.UnexpectedCorrectionIdentity, .Corrects, .None⟩
  else if lastSampleOrigin.value < sample.origin.value then
    .error ⟨.UnsupportedOrigin, .Origin, .None⟩
  else do
    requireFiniteFields sample
    if sample.pressure.lt .zero ∨ Binary64.one.lt sample.pressure then
      .error ⟨.PressureOutOfRange, .Pressure, .None⟩
    else
      requireReported sample capabilities

/-- The sample contract a source promises under its reported capabilities. -/
structure SampleContract (C : InputSourceCapabilities) (s : InputSample) : Prop where
  identity : s.id.value ≠ 0
  corrects : s.corrects.value ≠ 0 ↔ s.origin = .Corrected
  origin : s.origin ∈ [SampleOrigin.Measured, .Coalesced, .Predicted, .Corrected]
  finite : s.x.isFinite ∧ s.y.isFinite ∧ s.pressure.isFinite ∧ s.tiltXRadians.isFinite ∧
    s.tiltYRadians.isFinite ∧ s.twistRadians.isFinite
  pressureRange : s.pressure.lt .zero = false ∧ Binary64.one.lt s.pressure = false
  pressure : s.pressure.ne .zero → supports C .Pressure
  timestamp : s.timeNanoseconds ≠ 0 → supports C .Timestamp
  tilt : s.tiltXRadians.ne .zero ∨ s.tiltYRadians.ne .zero → supports C .Tilt
  twist : s.twistRadians.ne .zero → supports C .Twist
  eraser : s.eraser → supports C .Eraser
  hover : s.hovering → supports C .Hover
  coalescing : s.origin = .Coalesced → supports C .Coalescing
  prediction : s.origin = .Predicted → supports C .Prediction
  correction : s.origin = .Corrected → supports C .Correction

theorem requireFinite_eq_ok (value : Binary64) (field : InputSampleField) :
    requireFinite value field = .ok () ↔ value.isFinite := by
  unfold requireFinite
  split_ifs with h <;> simp [h]

theorem requireCapability_eq_ok (C : InputSourceCapabilities) (populated : Bool)
    (field : InputSampleField) (capability : InputCapability) :
    requireCapability C populated field capability = .ok () ↔
      (populated → supports C capability) := by
  unfold requireCapability
  cases populated <;> cases h : supports C capability <;> simp

theorem origin_defined_iff (origin : SampleOrigin) :
    ¬ lastSampleOrigin.value < origin.value ↔
      origin ∈ [SampleOrigin.Measured, .Coalesced, .Predicted, .Corrected] := by
  cases origin <;> (simp [lastSampleOrigin, SampleOrigin.value]; try omega)

theorem requireFiniteFields_eq_ok (s : InputSample) :
    requireFiniteFields s = .ok () ↔
      s.x.isFinite ∧ s.y.isFinite ∧ s.pressure.isFinite ∧ s.tiltXRadians.isFinite ∧
        s.tiltYRadians.isFinite ∧ s.twistRadians.isFinite := by
  rw [requireFiniteFields, forM_eq_ok]
  simp [numericFields, requireFinite_eq_ok]

theorem requireReported_eq_ok (s : InputSample) (C : InputSourceCapabilities) :
    requireReported s C = .ok () ↔
      (s.pressure.ne .zero → supports C .Pressure) ∧
      (s.timeNanoseconds ≠ 0 → supports C .Timestamp) ∧
      (s.tiltXRadians.ne .zero ∨ s.tiltYRadians.ne .zero → supports C .Tilt) ∧
      (s.twistRadians.ne .zero → supports C .Twist) ∧
      (s.eraser → supports C .Eraser) ∧ (s.hovering → supports C .Hover) ∧
      (s.origin = .Coalesced → supports C .Coalescing) ∧
      (s.origin = .Predicted → supports C .Prediction) ∧
      (s.origin = .Corrected → supports C .Correction) := by
  rw [requireReported, forM_eq_ok]
  simp only [requirements, List.forall_mem_cons, requireCapability_eq_ok, bne_iff_ne, beq_iff_eq,
    or_imp, and_assoc, List.not_mem_nil, IsEmpty.forall_iff, implies_true, and_true]

/-- The checks accept exactly the samples that meet the contract. -/
theorem validate_eq_ok (s : InputSample) (C : InputSourceCapabilities) :
    validate s C = .ok () ↔ SampleContract C s := by
  unfold validate
  split_ifs with hid hmissing hunexpected horigin hrange
  · simp only [false_iff]
    exact fun h => h.identity hid
  · simp only [false_iff]
    exact fun h => h.corrects.mpr hmissing.1 hmissing.2
  · simp only [false_iff]
    exact fun h => hunexpected.1 (h.corrects.mp hunexpected.2)
  · simp only [false_iff]
    exact fun h => (origin_defined_iff s.origin).mpr h.origin horigin
  · simp only [check_bind_eq_ok, reduceCtorEq, and_false, false_iff]
    exact fun h => by simp [h.pressureRange] at hrange
  · have hcorrects : s.corrects.value ≠ 0 ↔ s.origin = .Corrected := by tauto
    have hdefined := (origin_defined_iff s.origin).mp horigin
    rw [check_bind_eq_ok, requireFiniteFields_eq_ok, requireReported_eq_ok]
    constructor
    · intro hall
      obtain ⟨hfinite, h1, h2, h3, h4, h5, h6, h7, h8, h9⟩ := hall
      exact ⟨hid, hcorrects, hdefined, hfinite, by simpa using hrange,
        h1, h2, h3, h4, h5, h6, h7, h8, h9⟩
    · intro h
      exact ⟨h.finite, h.pressure, h.timestamp, h.tilt, h.twist, h.eraser, h.hover,
        h.coalescing, h.prediction, h.correction⟩

end LightPhi.Input
