import LightPhi.Base.Word
import LightPhi.Input.Validation

/-! One delivery against the rules every source's delivery stream obeys. -/
namespace LightPhi.Input
open Base

inductive BatchValidationReason where
  | ZeroContact | UndefinedPhase | TooManySamples | MissingSamples | SamplesOnCancel
  | ContactAlreadyOpen | ContactNotOpen | OrdinalNotIncreasing
  | InvalidSample | IdentityNotIncreasing | SequenceOutOfOrder | TimeNotMonotonic
  | UnknownCorrection | RepeatedCorrection | PredictionNotAhead
  deriving DecidableEq, Repr

structure BatchValidationError where
  reason : BatchValidationReason
  sampleIndex : Nat := 0
  sample : SampleValidationError := {}
  deriving DecidableEq, Repr

/-- What the deliveries accepted so far establish for the next one. -/
structure DeliveryState where
  contactOpen : Bool := false
  contact : ContactId := {}
  lastBatchOrdinal : UInt64 := 0
  lastSampleId : UInt64 := 0
  lastCommittedSequence : UInt64 := 0
  lastTimestamp : UInt64 := 0
  previousPredictionCount : Nat := 0
  previousPredictionIds : Vector SampleId maximumBatchSamples := Vector.replicate _ default
  previousPredictionSequences : Vector UInt64 maximumBatchSamples := Vector.replicate _ default
  deriving DecidableEq, Repr, Inhabited

/-- Running totals accumulated while checking the samples of one batch. -/
structure BatchScan where
  sampleId : UInt64 := 0
  committedSequence : UInt64 := 0
  timestamp : UInt64 := 0
  predictionCount : Nat := 0
  deriving DecidableEq, Repr

/- The locals of the sample loop: the scan, the two output arrays, and the sequence of the
   sample before. -/
structure SampleLoop where
  scan : BatchScan := {}
  predictionIds : Vector SampleId maximumBatchSamples := Vector.replicate _ default
  predictionSequences : Vector UInt64 maximumBatchSamples := Vector.replicate _ default
  lastSequenceInBatch : UInt64 := 0
  deriving DecidableEq, Repr

def fail {α : Type} (reason : BatchValidationReason) (index : Nat := 0) :
    Except BatchValidationError α :=
  .error { reason := reason, sampleIndex := index }

def validateEnvelope (batch : InputBatch) (capabilities : InputSourceCapabilities) :
    Except BatchValidationError Unit :=
  if batch.contact.value = 0 then fail .ZeroContact
  else if lastContactPhase.value < batch.phase.value then fail .UndefinedPhase
  else if capabilities.maximumBatchSamples.toNat < batch.samples.length ∨
      maximumBatchSamples < batch.samples.length then fail .TooManySamples
  else if (batch.phase = .Begin ∨ batch.phase = .Update) ∧ batch.samples = [] then
    fail .MissingSamples
  else if batch.phase = .Cancel ∧ batch.samples ≠ [] then fail .SamplesOnCancel
  else .ok ()

def matchesPreviousPrediction (state : DeliveryState) (sample : InputSample) : Bool :=
  (List.range state.previousPredictionCount).any fun index =>
    state.previousPredictionIds[index]? == some sample.corrects &&
      state.previousPredictionSequences[index]? == some sample.sequence

/-- A corrected sample names a prediction of the preceding batch, and only once. -/
def validateCorrected (previous : DeliveryState) (batch : InputBatch) (index : Nat)
    (sample : InputSample) (loop : SampleLoop) : Except BatchValidationError SampleLoop :=
  if !matchesPreviousPrediction previous sample then
    fail .UnknownCorrection index
  else if (batch.samples.take index).any fun earlier =>
      earlier.origin == .Corrected && earlier.corrects == sample.corrects then
    fail .RepeatedCorrection index
  else
    .ok { loop with scan.committedSequence := max loop.scan.committedSequence sample.sequence }

/-- A prediction lies ahead of everything before it, and is kept for correction. -/
def validatePredicted (sample : InputSample) (index : Nat) (loop : SampleLoop) :
    Except BatchValidationError SampleLoop :=
  let count := loop.scan.predictionCount
  if sample.sequence ≤ loop.scan.committedSequence ∨
      (0 < count ∧ sample.sequence ≤ loop.predictionSequences[count - 1]?.getD 0) then
    fail .PredictionNotAhead index
  else
    .ok { loop with
      predictionIds := loop.predictionIds.setIfInBounds count sample.id
      predictionSequences := loop.predictionSequences.setIfInBounds count sample.sequence
      scan.predictionCount := count + 1 }

/-- A measured or coalesced sample advances the committed sequence. -/
def validateObserved (sample : InputSample) (index : Nat) (loop : SampleLoop) :
    Except BatchValidationError SampleLoop :=
  if sample.sequence ≤ loop.scan.committedSequence then
    fail .SequenceOutOfOrder index
  else
    .ok { loop with scan.committedSequence := sample.sequence }

/- The switch over the origin has no default: an undefined origin checks nothing more. -/
def validateOrigin (batch : InputBatch) (previous : DeliveryState) (index : Nat)
    (sample : InputSample) (loop : SampleLoop) : Except BatchValidationError SampleLoop :=
  match sample.origin with
  | .Corrected => validateCorrected previous batch index sample loop
  | .Predicted => validatePredicted sample index loop
  | .Measured | .Coalesced => validateObserved sample index loop
  | .Invented _ => .ok loop

/-- The body of the loop over the samples of a batch. -/
def validateSample (batch : InputBatch) (capabilities : InputSourceCapabilities)
    (previous : DeliveryState) (index : Nat) (sample : InputSample) (loop : SampleLoop) :
    Except BatchValidationError SampleLoop :=
  match validate sample capabilities with
  | .error error => .error { reason := .InvalidSample, sampleIndex := index, sample := error }
  | .ok () =>
    if sample.id.value ≤ loop.scan.sampleId then
      fail .IdentityNotIncreasing index
    else if 0 < index ∧ sample.sequence < loop.lastSequenceInBatch then
      fail .SequenceOutOfOrder index
    else if supports capabilities .Timestamp ∧ sample.timeNanoseconds < loop.scan.timestamp then
      fail .TimeNotMonotonic index
    else do
      let checked ← validateOrigin batch previous index sample
        { loop with
          scan.sampleId := sample.id.value
          scan.timestamp := max loop.scan.timestamp sample.timeNanoseconds }
      .ok { checked with lastSequenceInBatch := sample.sequence }

/- The loop from one index on, over the samples that remain. -/
def validateSamplesFrom (batch : InputBatch) (capabilities : InputSourceCapabilities)
    (previous : DeliveryState) :
    Nat → List InputSample → SampleLoop → Except BatchValidationError SampleLoop
  | _, [], loop => .ok loop
  | index, sample :: rest, loop => do
    let loop ← validateSample batch capabilities previous index sample loop
    validateSamplesFrom batch capabilities previous (index + 1) rest loop

def validateSamples (batch : InputBatch) (capabilities : InputSourceCapabilities)
    (previous : DeliveryState) (loop : SampleLoop) : Except BatchValidationError SampleLoop :=
  validateSamplesFrom batch capabilities previous 0 batch.samples loop

def beginState (batch : InputBatch) : DeliveryState :=
  { contactOpen := true, contact := batch.contact, lastBatchOrdinal := batch.batchOrdinal }

/- The state the samples are checked from: a Begin starts from nothing, every other phase
   continues the open contact. -/
def enterContact (batch : InputBatch) (state : DeliveryState) :
    Except BatchValidationError DeliveryState :=
  if batch.phase = .Begin then
    if state.contactOpen then fail .ContactAlreadyOpen
    else .ok (beginState batch)
  else if !state.contactOpen ∨ state.contact ≠ batch.contact then fail .ContactNotOpen
  else if batch.batchOrdinal ≤ state.lastBatchOrdinal then fail .OrdinalNotIncreasing
  else .ok state

def startScan (next : DeliveryState) : SampleLoop :=
  { scan := { sampleId := next.lastSampleId, committedSequence := next.lastCommittedSequence,
              timestamp := next.lastTimestamp } }

def leaveBatch (batch : InputBatch) (next : DeliveryState) (loop : SampleLoop) : DeliveryState :=
  if batch.phase = .End ∨ batch.phase = .Cancel then {}
  else
    { next with
      lastBatchOrdinal := batch.batchOrdinal
      lastSampleId := loop.scan.sampleId
      lastCommittedSequence := loop.scan.committedSequence
      lastTimestamp := loop.scan.timestamp
      previousPredictionCount := loop.scan.predictionCount
      previousPredictionIds := loop.predictionIds
      previousPredictionSequences := loop.predictionSequences }

/-- Check one delivery against the delivery rules and return the state it leaves. -/
def validateBatch (batch : InputBatch) (capabilities : InputSourceCapabilities)
    (state : DeliveryState) : Except BatchValidationError DeliveryState := do
  validateEnvelope batch capabilities
  let next ← enterContact batch state
  let loop ← validateSamples batch capabilities next (startScan next)
  .ok (leaveBatch batch next loop)

/-- Every batch in turn, each checked from the state the one before left. -/
def validateStream (capabilities : InputSourceCapabilities) (state : DeliveryState)
    (batches : List InputBatch) : Except BatchValidationError DeliveryState :=
  batches.foldlM (fun state batch => validateBatch batch capabilities state) state

end LightPhi.Input
