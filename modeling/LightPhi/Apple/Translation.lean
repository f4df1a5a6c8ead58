import LightPhi.Apple.DeliveryCore

/-! What the captured events of a session mean, with no queue and no receiver in sight: each
event becomes at most two deliveries, numbered from the state of the contact. -/
namespace LightPhi.Apple
open Base

/-- The contact being captured and the identities handed out so far. -/
structure Cursor where
  contactOpen : Bool := false
  contact : UInt64 := 0
  batchOrdinal : UInt64 := 0
  sequence : UInt64 := 0
  nextContact : UInt64 := 0
  nextSample : UInt64 := 0
  deriving DecidableEq, Repr

/-- A delivery before it was given a place in a queue. -/
def Delivery.unslotted (d : Delivery) : Delivery := { d with slot := 0 }

namespace Cursor

/-- No contact is open; identities count on. -/
def closed (c : Cursor) : Cursor :=
  { nextContact := c.nextContact, nextSample := c.nextSample }

def opened (c : Cursor) : Cursor :=
  { contactOpen := true, contact := c.nextContact + 1, nextContact := c.nextContact + 1,
    nextSample := c.nextSample }

/-- One more point of the open contact. -/
def advanced (c : Cursor) : Cursor :=
  { c with
    batchOrdinal := c.batchOrdinal + 1
    sequence := c.sequence + 1
    nextSample := c.nextSample + 1 }

/-- The cancellation of the open contact: no sample. -/
def cancellation (c : Cursor) : Delivery :=
  { contact := c.contact, batchOrdinal := c.batchOrdinal + 1, phase := .Cancel }

/-- The delivery of the next point of the open contact. -/
def point (c : Cursor) (phase : DeliveryPhase) (event : CapturedEvent) : Delivery :=
  { contact := c.contact
    batchOrdinal := c.batchOrdinal + 1
    sample := c.nextSample + 1
    sequence := c.sequence + 1
    timeNanoseconds := event.timeNanoseconds
    x := event.x
    y := event.y
    pressure := event.pressure.clamp .zero .one
    tiltXRadians := event.tiltXRadians.clamp halfPi.neg halfPi
    tiltYRadians := event.tiltYRadians.clamp halfPi.neg halfPi
    twistRadians := event.twistRadians
    phase := phase
    eraser := event.eraser }

/-- The deliveries one event yields, and the cursor after it. -/
def translate (c : Cursor) (event : CapturedEvent) : Cursor × List Delivery :=
  match event.kind with
  | .DeviceObserved => (c, [])
  | .Cancel => if c.contactOpen then (c.closed, [c.cancellation]) else (c, [])
  | .Begin =>
    (c.opened.advanced,
      (if c.contactOpen then [c.cancellation] else []) ++ [c.opened.point .Begin event])
  | .Update => if c.contactOpen then (c.advanced, [c.point .Update event]) else (c, [])
  | .End => if c.contactOpen then (c.advanced.closed, [c.point .End event]) else (c, [])

def translateAll : Cursor → List CapturedEvent → Cursor × List Delivery
  | c, [] => (c, [])
  | c, event :: events =>
    let (next, deliveries) := c.translate event
    let (last, rest) := next.translateAll events
    (last, deliveries ++ rest)

theorem translateAll_concat (c : Cursor) (events : List CapturedEvent) (event : CapturedEvent) :
    c.translateAll (events ++ [event]) =
      (((c.translateAll events).1.translate event).1,
        (c.translateAll events).2 ++ ((c.translateAll events).1.translate event).2) := by
  induction events generalizing c with
  | nil => simp [translateAll]
  | cons e events ih => simp [translateAll, ih]

theorem translateAll_append (c : Cursor) (events more : List CapturedEvent) :
    c.translateAll (events ++ more) =
      (((c.translateAll events).1.translateAll more).1,
        (c.translateAll events).2 ++ ((c.translateAll events).1.translateAll more).2) := by
  induction events generalizing c with
  | nil => simp [translateAll]
  | cons e events ih => simp [translateAll, ih]

/-- Everything an event yields is the cancellation of the open contact or the point of the event
in the open or in a new contact. -/
theorem mem_translate {c : Cursor} {event : CapturedEvent} {d : Delivery}
    (h : d ∈ (c.translate event).2) :
    c.contactOpen ∧ d = c.cancellation ∨ event.kind ≠ .Cancel ∧
      (event.kind = .Begin ∧ d = c.opened.point .Begin event ∨
        event.kind ≠ .Begin ∧ c.contactOpen ∧
          d = c.point (AppleDeliveryCore.phaseOf event.kind) event) := by
  cases hk : event.kind <;> by_cases ho : c.contactOpen
  all_goals simp [translate, hk, ho] at h
  all_goals simp [h, ho, AppleDeliveryCore.phaseOf]

end Cursor

/-- The mask with a bit added when the value that needs it is there. -/
def growMask (populated : Bool) (bit mask : UInt16) : UInt16 :=
  if populated then mask ||| bit else mask

/-- The mask after a point was observed: the device's own mask and what the values need. -/
def observedMask (event : CapturedEvent) (mask : UInt16) : UInt16 :=
  growMask (event.twistRadians.ne .zero) CapturedCapability.Twist
    (growMask (event.tiltXRadians.ne .zero || event.tiltYRadians.ne .zero) CapturedCapability.Tilt
      (growMask (event.pressure.ne .zero) CapturedCapability.Pressure mask))

end LightPhi.Apple
