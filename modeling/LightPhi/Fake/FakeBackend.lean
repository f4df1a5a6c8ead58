import LightPhi.Base.RingBuffer
import LightPhi.Base.Segments
import LightPhi.Input.BatchValidation

/-! The deterministic backend that delivers a script on demand: a fixed ring of batches, whose
samples lie in one array with a fixed piece for each slot of the ring. -/
namespace LightPhi.Fake
open Base Input

inductive FakeSourceError where
  | InvalidDescriptor | OutOfMemory | QueueFull | BatchTooLarge | InvalidBatch | UndeclaredValue
  deriving DecidableEq, Repr

inductive DispatchError where
  | NotStarted | QueueEmpty | ReceiverBusy | ReceiverRejected | BackendFailure
  deriving DecidableEq, Repr

structure FakeInputSourceDescriptor where
  capabilities : InputSourceCapabilities := {}
  maximumQueuedBatches : UInt32 := 0
  deriving DecidableEq, Repr

/-- Highest queue bound accepted by the fake source. -/
def maximumQueuedBatches : UInt32 := 1024

structure BatchSlot where
  contact : ContactId := {}
  batchOrdinal : UInt64 := 0
  phase : ContactPhase := .Begin
  sampleOffset : Nat := 0
  sampleCount : UInt32 := 0
  deriving DecidableEq, Repr, Inhabited

/-- The state of one source. A receiver is known by its name in `ι`. -/
structure FakeInputSource (ι : Type*) where
  capabilities : InputSourceCapabilities := {}
  queueCapacity : UInt32 := 0
  queueHead : UInt32 := 0
  queueSize : UInt32 := 0
  slots : List BatchSlot := []
  sampleStorage : List InputSample := []
  receiver : Option ι := none
  failNext : Bool := false
  script : DeliveryState := {}
  deliveredContact : ContactId := {}
  deliveredBatchOrdinal : UInt64 := 0

/-- The receivers named by `ι`, in a world `ω` that holds what they remember. A receiver does not
call the source back. -/
class IInputReceiver (ι ω : Type*) where
  receive : ι → InputBatch → ω → DeliveryResult × ω
  sourceFailed : ι → InputSourceError → ω → ω

/-- Which of the allocations of Create succeed. -/
structure Memory where
  implementation : Bool := true
  slots : Bool := true
  sampleStorage : Bool := true
  source : Bool := true
  deriving DecidableEq, Repr

/-- The fake's own name for a delivery no device could have produced. -/
def scriptError (error : BatchValidationError) : FakeSourceError :=
  if error.reason = .TooManySamples then .BatchTooLarge
  else if error.reason = .InvalidSample ∧ error.sample.reason = .MissingCapability then
    .UndeclaredValue
  else .InvalidBatch

namespace FakeInputSource
variable {ι : Type*}

def descriptorInvalid (descriptor : FakeInputSourceDescriptor) : Bool :=
  descriptor.capabilities.maximumBatchSamples == 0 ||
    maximumBatchSamples < descriptor.capabilities.maximumBatchSamples.toNat ||
    descriptor.maximumQueuedBatches == 0 ||
    maximumQueuedBatches < descriptor.maximumQueuedBatches ||
    descriptor.capabilities.available &&& ~~~allInputCapabilities != 0 ||
    supports descriptor.capabilities .Correction && !supports descriptor.capabilities .Prediction

/- Every slot owns the samples from its offset on. -/
def allocate (descriptor : FakeInputSourceDescriptor) : FakeInputSource ι :=
  let queueCapacity := descriptor.maximumQueuedBatches
  let bound := descriptor.capabilities.maximumBatchSamples.toNat
  { capabilities := descriptor.capabilities
    queueCapacity := queueCapacity
    slots := (List.range queueCapacity.toNat).map fun index => { sampleOffset := index * bound }
    sampleStorage := List.replicate (queueCapacity.toNat * bound) {} }

/-- A stopped source, or why its bounds are unusable. -/
def create (memory : Memory) (descriptor : FakeInputSourceDescriptor) :
    Except FakeSourceError (FakeInputSource ι) :=
  if descriptorInvalid descriptor then .error .InvalidDescriptor
  else if !memory.implementation then .error .OutOfMemory
  else if !memory.slots || !memory.sampleStorage then .error .OutOfMemory
  else if !memory.source then .error .OutOfMemory
  else .ok (allocate descriptor)

def resetDelivery (s : FakeInputSource ι) : FakeInputSource ι :=
  { s with
    queueHead := 0
    queueSize := 0
    receiver := none
    failNext := false
    script := {}
    deliveredContact := {} }

def recordDelivered (slot : BatchSlot) (s : FakeInputSource ι) : FakeInputSource ι :=
  { s with
    deliveredContact := if slot.phase.closes then {} else slot.contact
    deliveredBatchOrdinal := slot.batchOrdinal }

def tail (s : FakeInputSource ι) : UInt32 := (s.queueHead + s.queueSize) % s.queueCapacity

def front (s : FakeInputSource ι) : BatchSlot := s.slots.getD s.queueHead.toNat default

/-- The batch a slot stands for. -/
def readBatch (sampleStorage : List InputSample) (slot : BatchSlot) : InputBatch :=
  { contact := slot.contact
    batchOrdinal := slot.batchOrdinal
    phase := slot.phase
    samples := Segments.segment sampleStorage slot.sampleOffset slot.sampleCount.toNat }

/-- The slot at the tail takes the batch over, and its samples go to the slot's own piece. -/
def push (batch : InputBatch) (s : FakeInputSource ι) : FakeInputSource ι :=
  let slot := s.slots.getD s.tail.toNat default
  { s with
    sampleStorage := Segments.overwrite s.sampleStorage slot.sampleOffset batch.samples
    slots := s.slots.set s.tail.toNat
      { slot with
        contact := batch.contact
        batchOrdinal := batch.batchOrdinal
        phase := batch.phase
        sampleCount := UInt32.ofNat batch.samples.length }
    queueSize := s.queueSize + 1 }

def pop (s : FakeInputSource ι) : FakeInputSource ι :=
  { s with queueHead := (s.queueHead + 1) % s.queueCapacity, queueSize := s.queueSize - 1 }

/- What a rejection abandons: the queue, the script and the contact the receiver knew. The source
   stays bound, and an injected failure stays due. -/
def abandon (s : FakeInputSource ι) : FakeInputSource ι :=
  { s with queueHead := 0, queueSize := 0, script := {}, deliveredContact := {} }

/-- One more batch of the script, when the rules allow it behind those before. -/
def enqueue (batch : InputBatch) (s : FakeInputSource ι) :
    Except FakeSourceError (FakeInputSource ι) :=
  if s.queueSize = s.queueCapacity then .error .QueueFull
  else match validateBatch batch s.capabilities s.script with
    | .error error => .error (scriptError error)
    | .ok nextState => .ok { s.push batch with script := nextState }

def setFailNext (s : FakeInputSource ι) : FakeInputSource ι := { s with failNext := true }

def queuedBatchCount (s : FakeInputSource ι) : UInt32 := s.queueSize

/-- The cancellation that Stop offers. -/
def cancelBatch (s : FakeInputSource ι) : InputBatch :=
  { contact := s.deliveredContact, batchOrdinal := s.deliveredBatchOrdinal + 1, phase := .Cancel }

end FakeInputSource

/-- A source and the world of its receivers. -/
structure Session (ι ω : Type*) where
  source : FakeInputSource ι
  world : ω

namespace Session
variable {ι ω : Type*}

def start (receiver : ι) (s : Session ι ω) : Except InputSourceError Unit × Session ι ω :=
  if s.source.receiver.isSome then (.error .AlreadyStarted, s)
  else (.ok (), { s with source := { s.source with receiver := some receiver } })

variable [IInputReceiver ι ω]

/-- The cancellation is offered once, whatever the receiver answers. -/
def stop (s : Session ι ω) : Session ι ω :=
  let world := match s.source.receiver with
    | some receiver =>
      if s.source.deliveredContact.value ≠ 0 then
        (IInputReceiver.receive receiver s.source.cancelBatch s.world).2
      else s.world
    | none => s.world
  { source := s.source.resetDelivery, world := world }

/-- Deliver or retry the oldest batch of the script. -/
def dispatchNext (s : Session ι ω) : Except DispatchError Unit × Session ι ω :=
  match s.source.receiver with
  | none => (.error .NotStarted, s)
  | some receiver =>
    if s.source.failNext then
      (.error .BackendFailure,
        { source := s.source.resetDelivery,
          world := IInputReceiver.sourceFailed receiver .BackendFailure s.world })
    else if s.source.queueSize = 0 then (.error .QueueEmpty, s)
    else
      let slot := s.source.front
      let batch := FakeInputSource.readBatch s.source.sampleStorage slot
      match IInputReceiver.receive receiver batch s.world with
      | (.Accepted, world) =>
        (.ok (), { source := (s.source.recordDelivered slot).pop, world := world })
      | (.Busy, world) => (.error .ReceiverBusy, { s with world := world })
      | (.Rejected, world) =>
        (.error .ReceiverRejected, { source := s.source.abandon, world := world })

end Session
end LightPhi.Fake
