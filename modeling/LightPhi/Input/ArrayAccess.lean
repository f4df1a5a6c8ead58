import LightPhi.Base.Access
import LightPhi.Input.DeliveryHistory

/-! The batch check once more, with every access to an array where the source makes it. An access
outside of an array has no outcome; while no more predictions are kept than fit there is none. -/
namespace LightPhi.Input.Accessing
open Base

def matchesPreviousPrediction (state : DeliveryState) (sample : InputSample) :
    Access BatchValidationError Bool := do
  -- the spans of the first entries must lie in the arrays
  Access.require (state.previousPredictionCount ≤ maximumBatchSamples)
  (List.range state.previousPredictionCount).anyM fun index => do
    let id ← Access.read state.previousPredictionIds index
    if id == sample.corrects then
      let sequence ← Access.read state.previousPredictionSequences index
      pure (sequence == sample.sequence)
    else
      pure false

def validateCorrected (previous : DeliveryState) (batch : InputBatch) (index : Nat)
    (loop : SampleLoop) : Access BatchValidationError SampleLoop := do
  let sample ← Access.read batch.samples index
  let known ← matchesPreviousPrediction previous sample
  if !known then
    Access.inside (fail .UnknownCorrection index)
  else
    let repeated ← (List.range index).anyM fun earlier => do
      let other ← Access.read batch.samples earlier
      pure (other.origin == .Corrected && other.corrects == sample.corrects)
    if repeated then
      Access.inside (fail .RepeatedCorrection index)
    else
      pure { loop with scan.committedSequence := max loop.scan.committedSequence sample.sequence }

/-- Whether the prediction does not lie ahead of the one before it in the batch. -/
def behindPrediction (sample : InputSample) (loop : SampleLoop) :
    Access BatchValidationError Bool :=
  if 0 < loop.scan.predictionCount then do
    let last ← Access.read loop.predictionSequences (loop.scan.predictionCount - 1)
    pure (decide (sample.sequence ≤ last))
  else
    pure false

def validatePredicted (sample : InputSample) (index : Nat) (loop : SampleLoop) :
    Access BatchValidationError SampleLoop :=
  if sample.sequence ≤ loop.scan.committedSequence then
    Access.inside (fail .PredictionNotAhead index)
  else do
    let behind ← behindPrediction sample loop
    if behind then
      Access.inside (fail .PredictionNotAhead index)
    else
      let ids ← Access.write loop.predictionIds loop.scan.predictionCount sample.id
      let sequences ←
        Access.write loop.predictionSequences loop.scan.predictionCount sample.sequence
      pure { loop with
        predictionIds := ids
        predictionSequences := sequences
        scan.predictionCount := loop.scan.predictionCount + 1 }

def validateOrigin (batch : InputBatch) (previous : DeliveryState) (index : Nat)
    (sample : InputSample) (loop : SampleLoop) : Access BatchValidationError SampleLoop :=
  match sample.origin with
  | .Corrected => validateCorrected previous batch index loop
  | .Predicted => validatePredicted sample index loop
  | .Measured | .Coalesced => Access.inside (validateObserved sample index loop)
  | .Invented _ => pure loop

/-- The body of the loop over the samples of a batch. -/
def validateSample (batch : InputBatch) (capabilities : InputSourceCapabilities)
    (previous : DeliveryState) (index : Nat) (loop : SampleLoop) :
    Access BatchValidationError SampleLoop := do
  let sample ← Access.read batch.samples index
  match validate sample capabilities with
  | .error error =>
    Access.inside (.error { reason := .InvalidSample, sampleIndex := index, sample := error })
  | .ok () =>
    if sample.id.value ≤ loop.scan.sampleId then
      Access.inside (fail .IdentityNotIncreasing index)
    else if 0 < index ∧ sample.sequence < loop.lastSequenceInBatch then
      Access.inside (fail .SequenceOutOfOrder index)
    else if supports capabilities .Timestamp ∧ sample.timeNanoseconds < loop.scan.timestamp then
      Access.inside (fail .TimeNotMonotonic index)
    else do
      let checked ← validateOrigin batch previous index sample
        { loop with
          scan.sampleId := sample.id.value
          scan.timestamp := max loop.scan.timestamp sample.timeNanoseconds }
      pure { checked with lastSequenceInBatch := sample.sequence }

/- The loop from one index on, as long as samples remain. -/
def validateSamplesFrom (batch : InputBatch) (capabilities : InputSourceCapabilities)
    (previous : DeliveryState) :
    (remaining index : Nat) → SampleLoop → Access BatchValidationError SampleLoop
  | 0, _, loop => pure loop
  | remaining + 1, index, loop => do
    let loop ← validateSample batch capabilities previous index loop
    validateSamplesFrom batch capabilities previous remaining (index + 1) loop

def validateBatch (batch : InputBatch) (capabilities : InputSourceCapabilities)
    (state : DeliveryState) : Access BatchValidationError DeliveryState := do
  Access.inside (validateEnvelope batch capabilities)
  let next ← Access.inside (enterContact batch state)
  let loop ←
    validateSamplesFrom batch capabilities next batch.samples.length 0 (startScan next)
  pure (leaveBatch batch next loop)

section Samples
variable {batch : InputBatch} {previous : DeliveryState} {sample : InputSample} {index : Nat}
  {loop : SampleLoop}

theorem matchesPreviousPrediction_eq
    (h : previous.previousPredictionCount ≤ maximumBatchSamples) (sample : InputSample) :
    matchesPreviousPrediction previous sample =
      pure (Input.matchesPreviousPrediction previous sample) := by
  rw [matchesPreviousPrediction, Access.require_of h, pure_bind, Input.matchesPreviousPrediction]
  refine Access.anyM_of fun i hi => ?_
  have hlt : i < maximumBatchSamples := lt_of_lt_of_le (List.mem_range.mp hi) h
  have hid : previous.previousPredictionIds[i]? = some previous.previousPredictionIds[i] :=
    Vector.getElem?_eq_getElem hlt
  have hsequence : previous.previousPredictionSequences[i]? =
      some previous.previousPredictionSequences[i] := Vector.getElem?_eq_getElem hlt
  rw [Access.read_of hid, pure_bind, Access.read_of hsequence, hid, hsequence]
  rw [Option.some_beq_some, Option.some_beq_some]
  cases previous.previousPredictionIds[i] == sample.corrects with
  | true => rfl
  | false => rfl

/-- The search leaves the arrays exactly when more predictions are said to be kept than fit. -/
theorem matchesPreviousPrediction_eq_none_iff :
    (matchesPreviousPrediction previous sample).run = none ↔
      maximumBatchSamples < previous.previousPredictionCount := by
  by_cases h : previous.previousPredictionCount ≤ maximumBatchSamples
  · rw [matchesPreviousPrediction_eq h]
    exact iff_of_false (Option.some_ne_none _) (not_lt.mpr h)
  · refine iff_of_true ?_ (not_le.mp h)
    rw [matchesPreviousPrediction, Access.require, if_neg h]
    rfl

theorem validateCorrected_eq (hcount : previous.previousPredictionCount ≤ maximumBatchSamples)
    (hat : batch.samples[index]? = some sample) :
    validateCorrected previous batch index loop =
      Access.inside (Input.validateCorrected previous batch index sample loop) := by
  have hindex : index < batch.samples.length := (List.getElem?_eq_some_iff.mp hat).1
  rw [validateCorrected, Access.read_of hat, pure_bind, matchesPreviousPrediction_eq hcount,
    pure_bind, Input.validateCorrected]
  split_ifs with hknown hrepeated
  · rfl
  · rw [Access.anyM_range_read hindex.le, pure_bind, if_pos hrepeated]
  · rw [Access.anyM_range_read hindex.le, pure_bind, if_neg hrepeated]
    rfl

/-- The next prediction has its place when the array is not full. -/
theorem validatePredicted_eq (hroom : loop.scan.predictionCount < maximumBatchSamples) :
    validatePredicted sample index loop =
      Access.inside (Input.validatePredicted sample index loop) := by
  have hlast : loop.scan.predictionCount - 1 < maximumBatchSamples := by omega
  have hread : loop.predictionSequences[loop.scan.predictionCount - 1]? =
      some loop.predictionSequences[loop.scan.predictionCount - 1] :=
    Vector.getElem?_eq_getElem hlast
  have hbehind : behindPrediction sample loop = pure (decide (0 < loop.scan.predictionCount ∧
      sample.sequence ≤ loop.predictionSequences[loop.scan.predictionCount - 1]?.getD 0)) := by
    rw [behindPrediction, Access.read_of hread, hread]
    split_ifs with hpos
    · simp [hpos]
    · simp [hpos]
  rw [validatePredicted, Input.validatePredicted, hbehind, Access.write_of hroom,
    Access.write_of hroom]
  simp only [pure_bind, decide_eq_true_eq]
  by_cases hcommitted : sample.sequence ≤ loop.scan.committedSequence
  · rw [if_pos hcommitted, if_pos (Or.inl hcommitted)]
  · rw [if_neg hcommitted]
    simp only [hcommitted, false_or]
    split_ifs with hahead
    · rfl
    · rfl

theorem validateOrigin_eq (hcount : previous.previousPredictionCount ≤ maximumBatchSamples)
    (hroom : loop.scan.predictionCount < maximumBatchSamples)
    (hat : batch.samples[index]? = some sample) :
    validateOrigin batch previous index sample loop =
      Access.inside (Input.validateOrigin batch previous index sample loop) := by
  rw [validateOrigin, Input.validateOrigin]
  cases sample.origin with
  | Corrected => exact validateCorrected_eq hcount hat
  | Predicted => exact validatePredicted_eq hroom
  | Measured | Coalesced => rfl
  | Invented _ => rfl

theorem validateSample_eq (hcount : previous.previousPredictionCount ≤ maximumBatchSamples)
    (hroom : loop.scan.predictionCount < maximumBatchSamples)
    (hat : batch.samples[index]? = some sample) (capabilities : InputSourceCapabilities) :
    validateSample batch capabilities previous index loop =
      Access.inside (Input.validateSample batch capabilities previous index sample loop) := by
  rw [validateSample, Access.read_of hat, pure_bind, Input.validateSample]
  cases validate sample capabilities with
  | error error => rfl
  | ok _ =>
    dsimp only
    split_ifs with hid hsequence htime
    · rfl
    · rfl
    · rfl
    · rw [validateOrigin_eq hcount ?_ hat]
      · exact Access.inside_bind fun _ _ => rfl
      · exact hroom

end Samples

/-- No more predictions are kept than samples were checked, so each has its place. -/
theorem validateSamplesFrom_eq {batch : InputBatch} {previous : DeliveryState}
    (hcount : previous.previousPredictionCount ≤ maximumBatchSamples)
    (hlength : batch.samples.length ≤ maximumBatchSamples)
    (capabilities : InputSourceCapabilities) {remaining index : Nat} {loop : SampleLoop}
    (hsplit : index + remaining = batch.samples.length)
    (hkept : loop.scan.predictionCount ≤ index) :
    validateSamplesFrom batch capabilities previous remaining index loop =
      Access.inside (Input.validateSamplesFrom batch capabilities previous index
        (batch.samples.drop index) loop) := by
  induction remaining generalizing index loop with
  | zero =>
    rw [List.drop_eq_nil_of_le (by omega)]
    rfl
  | succ remaining ih =>
    have hindex : index < batch.samples.length := by omega
    rw [List.drop_eq_getElem_cons hindex, validateSamplesFrom, Input.validateSamplesFrom,
      validateSample_eq hcount (by omega) (List.getElem?_eq_getElem hindex)]
    refine Access.inside_bind fun next hnext => ih (by omega) ?_
    have hstep := validateSample_predictionCount_le hnext
    omega

/-- From a state that keeps no more predictions than fit, no batch makes the check access an
array outside of its bounds. -/
theorem validateBatch_eq {state : DeliveryState}
    (hcount : state.previousPredictionCount ≤ maximumBatchSamples) (batch : InputBatch)
    (capabilities : InputSourceCapabilities) :
    validateBatch batch capabilities state =
      Access.inside (Input.validateBatch batch capabilities state) := by
  refine Access.inside_bind fun _ henvelope => Access.inside_bind fun next henter => ?_
  have hlength : batch.samples.length ≤ maximumBatchSamples :=
    ((validateEnvelope_eq_ok _ _).mp henvelope).length_le
  have hnext : next.previousPredictionCount ≤ maximumBatchSamples := by
    cases (enterContact_eq_ok_iff _ _ _).mp henter with
    | inl hbegin =>
      obtain ⟨-, -, rfl⟩ := hbegin
      exact Nat.zero_le _
    | inr hopen =>
      obtain ⟨-, -, -, -, rfl⟩ := hopen
      exact hcount
  rw [validateSamplesFrom_eq hnext hlength capabilities (by omega) (Nat.zero_le _)]
  exact Access.inside_bind fun _ _ => rfl

end LightPhi.Input.Accessing
