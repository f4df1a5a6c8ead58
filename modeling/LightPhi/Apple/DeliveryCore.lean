import LightPhi.Apple.EventSink

/-! The bounded delivery state machine shared by the Apple capture adapters: a fixed ring of
deliveries, the contact being captured, and a target that may refuse. -/
namespace LightPhi.Apple
open Base

inductive DeliveryPhase where
  | Begin | Update | End | Cancel
  deriving DecidableEq, Repr

/-- One queued delivery in framework-free values. -/
structure Delivery where
  slot : UInt32 := 0
  contact : UInt64 := 0
  batchOrdinal : UInt64 := 0
  sample : UInt64 := 0
  sequence : UInt64 := 0
  timeNanoseconds : UInt64 := 0
  x : Binary64 := .zero
  y : Binary64 := .zero
  pressure : Binary64 := .zero
  tiltXRadians : Binary64 := .zero
  tiltYRadians : Binary64 := .zero
  twistRadians : Binary64 := .zero
  phase : DeliveryPhase := .Begin
  eraser : Bool := false
  deriving DecidableEq, Repr

instance : Inhabited Delivery := ⟨{}⟩

inductive DeliveryDecision where
  | Accepted | Busy | Rejected
  deriving DecidableEq, Repr

inductive DeliveryFailure where
  | Overflow
  deriving DecidableEq, Repr

/-- The fixed queue and the contact state of the core. -/
structure AppleDeliveryCore where
  queue : List Delivery
  capacity : UInt32
  head : UInt32 := 0
  size : UInt32 := 0
  capabilities : UInt16 := CapturedCapability.Timestamp
  nextContact : UInt64 := 0
  nextSample : UInt64 := 0
  contact : UInt64 := 0
  batchOrdinal : UInt64 := 0
  sequence : UInt64 := 0
  started : Bool := false
  contactOpen : Bool := false
  deriving DecidableEq, Repr

/-- What receives the deliveries. A target may read the core while it is called, and changes
nothing but itself. -/
class IDeliveryTarget (τ : Type*) where
  receive : AppleDeliveryCore → Delivery → τ → DeliveryDecision × τ
  failed : AppleDeliveryCore → DeliveryFailure → τ → τ

/-- A core bound to its target. -/
structure Session (τ : Type*) where
  core : AppleDeliveryCore
  target : τ

/-- pi / 2, rounded to binary64. -/
def halfPi : Binary64 := ⟨0x3FF921FB54442D18⟩

namespace AppleDeliveryCore

def create (queueCapacity : UInt32) : AppleDeliveryCore :=
  { queue := List.replicate queueCapacity.toNat {}, capacity := queueCapacity }

def hasPending (core : AppleDeliveryCore) : Bool := core.started && core.size != 0

def resetContact (core : AppleDeliveryCore) : AppleDeliveryCore :=
  { core with contactOpen := false, contact := 0, batchOrdinal := 0, sequence := 0 }

def discardQueue (core : AppleDeliveryCore) : AppleDeliveryCore :=
  { core with head := 0, size := 0 }

def front (core : AppleDeliveryCore) : Delivery := core.queue.getD core.head.toNat default

def tail (core : AppleDeliveryCore) : UInt32 := (core.head + core.size) % core.capacity

/-- The delivery goes behind the last one and remembers its slot. -/
def push (delivery : Delivery) (core : AppleDeliveryCore) : AppleDeliveryCore :=
  { core with
    queue := core.queue.set core.tail.toNat { delivery with slot := core.tail }
    size := core.size + 1 }

def pop (core : AppleDeliveryCore) : AppleDeliveryCore :=
  { core with head := (core.head + 1) % core.capacity, size := core.size - 1 }

/- What a device reports replaces the mask; the time of an event is always known. -/
def report (event : CapturedEvent) (core : AppleDeliveryCore) : AppleDeliveryCore :=
  { core with capabilities := event.capabilities ||| CapturedCapability.Timestamp }

/- The mask grows with the values an event carries, whatever the device reported. -/
def observe (event : CapturedEvent) (core : AppleDeliveryCore) : AppleDeliveryCore :=
  let mask := core.capabilities
  let mask := if event.pressure.ne .zero then mask ||| CapturedCapability.Pressure else mask
  let mask := if event.tiltXRadians.ne .zero || event.tiltYRadians.ne .zero then
    mask ||| CapturedCapability.Tilt else mask
  let mask := if event.twistRadians.ne .zero then mask ||| CapturedCapability.Twist else mask
  { core with capabilities := mask }

def openContact (core : AppleDeliveryCore) : AppleDeliveryCore :=
  { core with
    contactOpen := true
    nextContact := core.nextContact + 1
    contact := core.nextContact + 1
    batchOrdinal := 0
    sequence := 0 }

def countDelivery (core : AppleDeliveryCore) : AppleDeliveryCore :=
  { core with batchOrdinal := core.batchOrdinal + 1 }

def countSample (core : AppleDeliveryCore) : AppleDeliveryCore :=
  { core with nextSample := core.nextSample + 1, sequence := core.sequence + 1 }

/-- The phase of the delivery that carries a point. -/
def phaseOf : CapturedEventKind → DeliveryPhase
  | .Begin => .Begin
  | .End => .End
  | .DeviceObserved | .Update | .Cancel => .Update

/-- The delivery of one point, numbered by counters that were already advanced. -/
def pointDelivery (event : CapturedEvent) (core : AppleDeliveryCore) : Delivery :=
  { contact := core.contact
    batchOrdinal := core.batchOrdinal
    sample := core.nextSample
    sequence := core.sequence
    timeNanoseconds := event.timeNanoseconds
    x := event.x
    y := event.y
    pressure := event.pressure.clamp .zero .one
    tiltXRadians := event.tiltXRadians.clamp halfPi.neg halfPi
    tiltYRadians := event.tiltYRadians.clamp halfPi.neg halfPi
    twistRadians := event.twistRadians
    phase := phaseOf event.kind
    eraser := event.eraser }

def cancelDelivery (core : AppleDeliveryCore) : Delivery :=
  { contact := core.contact, batchOrdinal := core.batchOrdinal, phase := .Cancel }

def start (core : AppleDeliveryCore) : AppleDeliveryCore :=
  { core.discardQueue with started := true }.resetContact

/-- Nothing queued, no contact, no session. -/
def halt (core : AppleDeliveryCore) : AppleDeliveryCore :=
  { core.discardQueue with started := false }.resetContact

@[simp] theorem start_started (core : AppleDeliveryCore) : core.start.started = true := rfl
@[simp] theorem halt_started (core : AppleDeliveryCore) : core.halt.started = false := rfl

/-- The queue holds the cancellation alone, in the first slot. -/
def onlyCancel (core : AppleDeliveryCore) : AppleDeliveryCore :=
  { core with queue := core.queue.set 0 core.countDelivery.cancelDelivery, head := 0, size := 1 }

end AppleDeliveryCore

namespace Session
open AppleDeliveryCore
variable {τ : Type*}

def create (queueCapacity : UInt32) (target : τ) : Session τ :=
  { core := .create queueCapacity, target := target }

def start (s : Session τ) : Session τ := { s with core := s.core.start }

variable [IDeliveryTarget τ]

def fail (failure : DeliveryFailure) (s : Session τ) : Session τ :=
  { core := s.core.halt, target := IDeliveryTarget.failed s.core.halt failure s.target }

/-- One more delivery at the tail. When the ring is full, the error is the session after the
failure was reported: the caller returns at once. -/
def enqueue (delivery : Delivery) (s : Session τ) : Except (Session τ) (Session τ) :=
  if s.core.size = s.core.capacity then .error (s.fail .Overflow)
  else .ok { s with core := s.core.push delivery }

/- One turn of the drain loop, and the turns after it. Every accepted delivery leaves the ring, so
   the number of deliveries bounds the number of turns. -/
def drainFrom : Nat → Session τ → Session τ
  | 0, s => s
  | turns + 1, s =>
    if s.core.hasPending then
      match IDeliveryTarget.receive s.core s.core.front s.target with
      | (.Accepted, target) => drainFrom turns { core := s.core.pop, target := target }
      | (.Busy, target) => { s with target := target }
      | (.Rejected, target) => { core := s.core.discardQueue.resetContact, target := target }
    else s

/-- Offer deliveries from the head until none is left or the target refuses one. -/
def drain (s : Session τ) : Session τ := drainFrom s.core.size.toNat s

def stop (s : Session τ) : Session τ :=
  let s := if s.core.started && s.core.contactOpen then drain { s with core := s.core.onlyCancel }
    else s
  { s with core := s.core.halt }

/-- Close the open contact with a cancellation behind everything queued. -/
def enqueueCancel (s : Session τ) : Except (Session τ) (Session τ) := do
  let core := s.core.countDelivery
  let s ← enqueue core.cancelDelivery { s with core := core }
  .ok { s with core := s.core.resetContact }

/-- Queue the delivery of one point of the open contact. -/
def enqueuePoint (event : CapturedEvent) (s : Session τ) : Except (Session τ) (Session τ) := do
  let core := (s.core.observe event).countDelivery.countSample
  let s ← enqueue (core.pointDelivery event) { s with core := core }
  .ok (if event.kind = .End then { s with core := s.core.resetContact } else s)

/-- Drain what was queued; after an overflow there is nothing to do. -/
def finish : Except (Session τ) (Session τ) → Session τ
  | .error s => s
  | .ok s => s.drain

def submitEvent (event : CapturedEvent) (s : Session τ) : Session τ :=
  if !s.core.started then s
  else match event.kind with
    | .DeviceObserved => { s with core := s.core.report event }
    | .Cancel => if s.core.contactOpen then finish s.enqueueCancel else s
    | .Begin => finish do
      let s ← if s.core.contactOpen then s.enqueueCancel else .ok s
      enqueuePoint event { s with core := s.core.openContact }
    | .Update | .End => if s.core.contactOpen then finish (s.enqueuePoint event) else s

def submit (event : CapturedEvent) (s : Session τ) : Bool × Session τ :=
  let s := s.submitEvent event
  (s.core.hasPending, s)

def retryPending (s : Session τ) : Bool × Session τ :=
  let s := s.drain
  (s.core.hasPending, s)

end Session
end LightPhi.Apple
