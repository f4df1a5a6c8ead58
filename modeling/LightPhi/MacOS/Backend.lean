import LightPhi.Apple.TargetCalls
import LightPhi.Fake.FakeBackend
import LightPhi.MacOS.InputMonitor
import LightPhi.MacOS.PublicRules

/-! The macOS source: the delivery core, the adapter that hands its deliveries to a receiver, the
monitor that captures events, and the retry closures that wait on the main queue. -/
namespace LightPhi.MacOS
open Base Input Apple
open Fake (IInputReceiver)

/-- Hard upper bound for queued macOS deliveries. -/
def maximumBackendQueuedBatches : UInt32 := 1024

structure InputSourceDescriptor where
  maximumQueuedBatches : UInt32 := 64
  acceptPointerFallback : Bool := false
  deriving DecidableEq, Repr

inductive InputSourceCreationError where
  | InvalidDescriptor | OutOfMemory
  deriving DecidableEq, Repr

/-- What the core delivers to: the bound receiver and one sample for each slot of the ring. -/
structure InputSourceImplementation (ι ω : Type*) where
  samples : List InputSample
  acceptPointerFallback : Bool
  receiver : Option ι := none
  monitor : Option MacOSInputMonitor := none
  monitorsCreated : Nat := 0
  world : ω

def toDecision : DeliveryResult → DeliveryDecision
  | .Accepted => .Accepted
  | .Busy => .Busy
  | .Rejected => .Rejected

namespace InputSourceImplementation
variable {ι ω : Type*}

/-- The batch that is handed over. The sample of the slot is written only when it is another. -/
def handOver (d : Delivery) (t : InputSourceImplementation ι ω) :
    InputBatch × InputSourceImplementation ι ω :=
  let batch : InputBatch :=
    { contact := ⟨d.contact⟩, batchOrdinal := d.batchOrdinal, phase := toContactPhase d.phase }
  if d.sample ≠ 0 then
    let samples :=
      if (t.samples.getD d.slot.toNat default).id.value ≠ d.sample then
        t.samples.set d.slot.toNat (toSample d)
      else t.samples
    ({ batch with samples := [samples.getD d.slot.toNat default] }, { t with samples := samples })
  else (batch, t)

/-- Nothing but the samples changes when a batch is handed over. -/
theorem handOver_snd (d : Delivery) (t : InputSourceImplementation ι ω) :
    ∃ samples, (t.handOver d).2 = { t with samples := samples } := by
  simp only [handOver]
  split_ifs
  · exact ⟨_, rfl⟩
  · exact ⟨_, rfl⟩
  · exact ⟨_, rfl⟩

/-- Capture anew: a monitor that is still there is released. -/
def startCapture (appKit : AppKit) (t : InputSourceImplementation ι ω) :
    Bool × InputSourceImplementation ι ω :=
  let monitor : MacOSInputMonitor :=
    { object := t.monitorsCreated, acceptPointerFallback := t.acceptPointerFallback }
  let (started, monitor) := monitor.start appKit
  (started, { t with monitor := some monitor, monitorsCreated := t.monitorsCreated + 1 })

/-- The monitor is stopped and released: closures that wait find it gone. -/
def stopCapture (t : InputSourceImplementation ι ω) : InputSourceImplementation ι ω :=
  { t with monitor := none }

variable [IInputReceiver ι ω]

instance : IDeliveryTarget (InputSourceImplementation ι ω) where
  receive _ d t :=
    match t.receiver with
    | none => (.Rejected, t)
    | some receiver =>
      let (batch, t) := t.handOver d
      let (result, world) := IInputReceiver.receive receiver batch t.world
      (toDecision result, { t with world := world })
  failed _ _ t :=
    let receiver := t.receiver
    let t := { t with receiver := none }.stopCapture
    match receiver with
    | none => t
    | some receiver => { t with world := IInputReceiver.sourceFailed receiver .Overflow t.world }

theorem receive_unbound {t : InputSourceImplementation ι ω} (h : t.receiver = none)
    (core : AppleDeliveryCore) (d : Delivery) :
    IDeliveryTarget.receive core d t = (.Rejected, t) := by
  simp [IDeliveryTarget.receive, h]

theorem receive_bound {t : InputSourceImplementation ι ω} {receiver : ι}
    (h : t.receiver = some receiver) (core : AppleDeliveryCore) (d : Delivery) :
    IDeliveryTarget.receive core d t =
      (toDecision (IInputReceiver.receive receiver (t.handOver d).1 t.world).1,
        { t with
          samples := (t.handOver d).2.samples
          world := (IInputReceiver.receive receiver (t.handOver d).1 t.world).2 }) := by
  obtain ⟨samples, hsnd⟩ := handOver_snd d t
  simp only [IDeliveryTarget.receive, h, hsnd]

end InputSourceImplementation

/-- A source, and the retry closures that the main queue has not run yet, each by the object it
refers to. -/
structure InputSource (ι ω : Type*) where
  session : Session (InputSourceImplementation ι ω)
  mainQueue : List Nat := []

namespace InputSource
variable {ι ω : Type*}

def create (memory : Fake.Memory) (descriptor : InputSourceDescriptor) (world : ω) :
    Except InputSourceCreationError (InputSource ι ω) :=
  if descriptor.maximumQueuedBatches == 0 ||
      maximumBackendQueuedBatches < descriptor.maximumQueuedBatches then .error .InvalidDescriptor
  else if !memory.implementation || !memory.slots || !memory.sampleStorage then .error .OutOfMemory
  else if !memory.source then .error .OutOfMemory
  else .ok
    { session := .create descriptor.maximumQueuedBatches
        { samples := List.replicate descriptor.maximumQueuedBatches.toNat {}
          acceptPointerFallback := descriptor.acceptPointerFallback
          world := world } }

def receiver (s : InputSource ι ω) : Option ι := s.session.target.receiver

def monitor (s : InputSource ι ω) : Option MacOSInputMonitor := s.session.target.monitor

def updateTarget (f : InputSourceImplementation ι ω → InputSourceImplementation ι ω)
    (s : InputSource ι ω) : InputSource ι ω :=
  { s with session := { s.session with target := f s.session.target } }

def bind (receiver : Option ι) : InputSource ι ω → InputSource ι ω :=
  updateTarget fun t => { t with receiver := receiver }

def stopCapture : InputSource ι ω → InputSource ι ω := updateTarget fun t => t.stopCapture

def updateMonitor (f : MacOSInputMonitor → MacOSInputMonitor) : InputSource ι ω → InputSource ι ω :=
  updateTarget fun t => { t with monitor := t.monitor.map f }

section UpdateMonitor
variable (f : MacOSInputMonitor → MacOSInputMonitor) (s : InputSource ι ω)

@[simp] theorem updateMonitor_monitor : (s.updateMonitor f).monitor = s.monitor.map f := rfl
@[simp] theorem updateMonitor_mainQueue : (s.updateMonitor f).mainQueue = s.mainQueue := rfl
@[simp] theorem updateMonitor_core : (s.updateMonitor f).session.core = s.session.core := rfl
@[simp] theorem updateMonitor_monitorsCreated : (s.updateMonitor f).session.target.monitorsCreated =
    s.session.target.monitorsCreated := rfl

end UpdateMonitor

variable [IInputReceiver ι ω]

def stopCore (s : InputSource ι ω) : InputSource ι ω := { s with session := s.session.stop }

/-- Bind the receiver, start the core, and capture; when capture does not start, undo all. -/
def start (receiver : ι) (appKit : AppKit) (s : InputSource ι ω) :
    Except InputSourceError Unit × InputSource ι ω :=
  if s.receiver.isSome then (.error .AlreadyStarted, s)
  else
    let s := s.bind (some receiver)
    let session := s.session.start
    let (started, target) := session.target.startCapture appKit
    let s := { s with session := { session with target := target } }
    if !started then (.error .Unavailable, (s.stopCore.bind none).stopCapture)
    else (.ok (), s)

def stop (s : InputSource ι ω) : InputSource ι ω := s.stopCapture.stopCore.bind none

/-! What the monitor calls through the event sink. -/

def submit (event : CapturedEvent) (s : InputSource ι ω) : Bool × InputSource ι ω :=
  let (pending, session) := s.session.submit event
  (pending, { s with session := session })

def retryPending (s : InputSource ι ω) : Bool × InputSource ι ω :=
  let (pending, session) := s.session.retryPending
  (pending, { s with session := session })

/-- A report of the device; whether deliveries wait is not looked at. -/
def observeDevice (capabilities : UInt16) (s : InputSource ι ω) : InputSource ι ω :=
  (s.submit { kind := .DeviceObserved, capabilities := capabilities }).2

def cancel (s : InputSource ι ω) : Bool × InputSource ι ω := s.submit { kind := .Cancel }

/-- Leave a closure on the main queue that offers refused deliveries again. -/
def scheduleRetry (monitor : MacOSInputMonitor) (s : InputSource ι ω) : InputSource ι ω :=
  { s.updateMonitor fun monitor => { monitor with retryScheduled := true } with
    mainQueue := s.mainQueue ++ [monitor.object] }

/-- Leave such a closure when deliveries wait, unless there is one. -/
def retryIfPending (monitor : MacOSInputMonitor) (pending : Bool) (s : InputSource ι ω) :
    InputSource ι ω :=
  if !pending || monitor.retryScheduled then s else s.scheduleRetry monitor

/-- The first ordinary pointer on a machine without a tablet is reported as a device. -/
def observePointer (monitor : MacOSInputMonitor) (event : NSEvent) (s : InputSource ι ω) :
    InputSource ι ω :=
  if !event.tabletPoint && !monitor.observedTablet && !monitor.observedPointer then
    (s.updateMonitor fun monitor => { monitor with observedPointer := true }).observeDevice
      CapturedCapability.Timestamp
  else s

/-- One event in the monitor that captures it. -/
def captureWith (monitor : MacOSInputMonitor) (event : NSEvent) (s : InputSource ι ω) :
    InputSource ι ω :=
  if event.type = .tabletProximity then
    let s := s.updateMonitor fun monitor =>
      { monitor with eraser := event.eraserDevice, observedTablet := true }
    s.observeDevice (mapAppKitCapabilities event.capabilityMask event.eraserDevice)
  else if event.type = .mouseCancelled then
    let (pending, s) := s.cancel
    s.retryIfPending monitor pending
  else if !event.tabletPoint && !monitor.acceptPointerFallback then s
  else
    let s := s.observePointer monitor event
    match capturedEvent event monitor.eraser with
    | none => s
    | some captured =>
      let (pending, s) := s.submit captured
      s.retryIfPending monitor pending

/-- AppKit delivers an event to the monitor, while there is one that listens. -/
def capture (event : NSEvent) (s : InputSource ι ω) : InputSource ι ω :=
  match s.monitor with
  | some monitor => if monitor.eventMonitor then s.captureWith monitor event else s
  | none => s

/-- The application is no longer active. -/
def resignActive (s : InputSource ι ω) : InputSource ι ω :=
  match s.monitor with
  | some monitor =>
    if monitor.resignObserver then
      let (pending, s) := s.cancel
      s.retryIfPending monitor pending
    else s
  | none => s

/-- A closure runs: it does nothing unless its object is still there. -/
def retry (object : Nat) (s : InputSource ι ω) : InputSource ι ω :=
  match s.monitor with
  | some monitor =>
    if monitor.object = object then
      let s := s.updateMonitor fun monitor => { monitor with retryScheduled := false }
      let (pending, s) := s.retryPending
      s.retryIfPending { monitor with retryScheduled := false } pending
    else s
  | none => s

/-- The main queue runs the closure at a position, once. -/
def fire (index : Nat) (s : InputSource ι ω) : InputSource ι ω :=
  match s.mainQueue[index]? with
  | some object => { s with mainQueue := s.mainQueue.eraseIdx index }.retry object
  | none => s

/-- What a monitor is to the retry closures. -/
def schedule (monitor : MacOSInputMonitor) : Nat × Bool :=
  (monitor.object, monitor.retryScheduled)

/-- How Start can go. A new monitor has a number of its own, and no closure knows it. -/
inductive Starts (receiver : ι) (s : InputSource ι ω) :
    Except InputSourceError Unit × InputSource ι ω → Prop
  | bound (h : s.receiver.isSome) : Starts receiver s (.error .AlreadyStarted, s)
  | started (monitor : MacOSInputMonitor) (h : s.receiver = none)
      (hm : schedule monitor = (s.session.target.monitorsCreated, false)) :
      Starts receiver s (.ok (), { s with session := {
        core := s.session.core.start
        target := { s.session.target with
          receiver := some receiver
          monitor := some monitor
          monitorsCreated := s.session.target.monitorsCreated + 1 } } })
  | unavailable (h : s.receiver = none) :
      Starts receiver s (.error .Unavailable, { s with session := {
        core := s.session.core.start.halt
        target := { s.session.target with
          receiver := none
          monitor := none
          monitorsCreated := s.session.target.monitorsCreated + 1 } } })

theorem schedule_start (appKit : AppKit) (monitor : MacOSInputMonitor) :
    schedule (monitor.start appKit).2 = schedule monitor := by
  rw [MacOSInputMonitor.start]
  split_ifs <;> rfl

theorem start_cases (receiver : ι) (appKit : AppKit) (s : InputSource ι ω) :
    Starts receiver s (s.start receiver appKit) := by
  by_cases hbound : s.receiver.isSome
  · rw [start, if_pos hbound]
    exact .bound hbound
  · have hnone := Option.not_isSome_iff_eq_none.mp hbound
    have hschedule := schedule_start appKit
      { object := s.session.target.monitorsCreated
        acceptPointerFallback := s.session.target.acceptPointerFallback }
    rcases hstart : MacOSInputMonitor.start appKit
      { object := s.session.target.monitorsCreated
        acceptPointerFallback := s.session.target.acceptPointerFallback } with ⟨started, monitor⟩
    rw [hstart] at hschedule
    rw [start, if_neg hbound]
    simp only [bind, updateTarget, Session.start, InputSourceImplementation.startCapture, hstart]
    cases started with
    | true => exact .started monitor hnone hschedule
    | false => exact .unavailable hnone -- Nothing was captured yet: the core has nothing to offer.

/-- Stop releases the monitor, lets the core offer its cancellation, and unbinds the receiver. -/
theorem stop_offers (s : InputSource ι ω) :
    ∃ target, Offers s.session.target.stopCapture target ∧
      s.stop.session.target = { target with receiver := none } ∧
      s.stop.session.core.started = false := by
  obtain ⟨hoffers, hstopped⟩ := Session.stop_offers s.stopCapture.session
  exact ⟨_, hoffers, rfl, hstopped⟩

/-- A call into the core from the monitor, and the closure it leaves when deliveries wait. -/
def served (monitor : MacOSInputMonitor) (outcome : Bool × InputSource ι ω) : InputSource ι ω :=
  outcome.2.retryIfPending monitor outcome.1

/-- An invariant that each of the ways keeps in which the main thread reaches a monitor. -/
structure MainThreadPreserves (inv : InputSource ι ω → Prop) : Prop where
  reported {s} (h : inv s) (f : MacOSInputMonitor → MacOSInputMonitor)
    (hf : ∀ monitor, schedule (f monitor) = schedule monitor) (capabilities : UInt16) :
    inv ((s.updateMonitor f).observeDevice capabilities)
  submitted {s monitor} (h : inv s) (hm : s.monitor.map schedule = some (schedule monitor))
    (event : CapturedEvent) : inv (served monitor (s.submit event))
  retried {s monitor index} (h : inv s) (hm : s.monitor = some monitor)
    (hq : s.mainQueue[index]? = some monitor.object) :
    inv (served { monitor with retryScheduled := false }
      (({ s with mainQueue := s.mainQueue.eraseIdx index }.updateMonitor
        fun monitor => { monitor with retryScheduled := false }).retryPending))
  dropped {s object index} (h : inv s) (hq : s.mainQueue[index]? = some object)
    (hm : ∀ monitor, s.monitor = some monitor → monitor.object ≠ object) :
    inv { s with mainQueue := s.mainQueue.eraseIdx index }

section MainThread
variable {inv : InputSource ι ω → Prop} {s : InputSource ι ω} {monitor : MacOSInputMonitor}

/-- A report of the device changes the core alone, and not what waits there. -/
theorem observeDevice_frame (capabilities : UInt16) (s : InputSource ι ω) :
    (s.observeDevice capabilities).session.target = s.session.target ∧
      (s.observeDevice capabilities).mainQueue = s.mainQueue ∧
      (s.observeDevice capabilities).session.core.hasPending = s.session.core.hasPending := by
  have hreport : (s.observeDevice capabilities).session =
      s.session.submitEvent { kind := .DeviceObserved, capabilities := capabilities } := rfl
  rw [hreport, Session.submitEvent]
  split_ifs <;> exact ⟨rfl, rfl, rfl⟩

theorem schedule_reported (f : MacOSInputMonitor → MacOSInputMonitor)
    (hf : ∀ monitor, schedule (f monitor) = schedule monitor) (capabilities : UInt16) :
    ((s.updateMonitor f).observeDevice capabilities).monitor.map schedule =
      s.monitor.map schedule := by
  have hsame : ((s.updateMonitor f).observeDevice capabilities).monitor = s.monitor.map f :=
    congrArg InputSourceImplementation.monitor (observeDevice_frame capabilities _).1
  rw [hsame, Option.map_map]
  congr 1
  exact funext hf

theorem MainThreadPreserves.captureWith (hinv : MainThreadPreserves inv) (h : inv s)
    (hm : s.monitor = some monitor) (event : NSEvent) : inv (s.captureWith monitor event) := by
  have hschedule : s.monitor.map schedule = some (schedule monitor) := by rw [hm, Option.map_some]
  have hpointer : inv (s.observePointer monitor event) ∧
      (s.observePointer monitor event).monitor.map schedule = some (schedule monitor) := by
    rw [observePointer]
    split_ifs
    · refine ⟨hinv.reported h _ ?_ _, (schedule_reported _ ?_ _).trans hschedule⟩
      · exact fun _ => rfl
      · exact fun _ => rfl
    · exact ⟨h, hschedule⟩
  rw [InputSource.captureWith]
  split_ifs
  · refine hinv.reported h _ ?_ _
    exact fun _ => rfl
  · exact hinv.submitted h hschedule _
  · exact h
  · cases capturedEvent event monitor.eraser with
    | none => exact hpointer.1
    | some captured => exact hinv.submitted hpointer.1 hpointer.2 captured

theorem MainThreadPreserves.capture (hinv : MainThreadPreserves inv) (h : inv s)
    (event : NSEvent) : inv (s.capture event) := by
  rw [InputSource.capture]
  cases hm : s.monitor with
  | none => exact h
  | some monitor =>
    simp only
    split_ifs
    · exact hinv.captureWith h hm event
    · exact h

theorem MainThreadPreserves.resignActive (hinv : MainThreadPreserves inv) (h : inv s) :
    inv s.resignActive := by
  rw [InputSource.resignActive]
  cases hm : s.monitor with
  | none => exact h
  | some monitor =>
    simp only
    split_ifs
    · exact hinv.submitted h (by rw [hm, Option.map_some]) _
    · exact h

theorem MainThreadPreserves.fire (hinv : MainThreadPreserves inv) (h : inv s) (index : Nat) :
    inv (s.fire index) := by
  rw [InputSource.fire]
  cases hq : s.mainQueue[index]? with
  | none => exact h
  | some object =>
    have hsame : InputSource.monitor { s with mainQueue := s.mainQueue.eraseIdx index } =
        s.monitor := rfl
    simp only [InputSource.retry, hsame]
    cases hm : s.monitor with
    | none => exact hinv.dropped h hq (by simp [hm])
    | some monitor =>
      simp only
      split_ifs with hobject
      · exact hinv.retried h hm (hobject ▸ hq)
      · refine hinv.dropped h hq fun other hother => ?_
        rw [hm] at hother
        rwa [← Option.some.inj hother]

end MainThread
end InputSource

/-- What can happen to a source. Every step runs on the main thread, one after the other. -/
inductive SourceStep (ι : Type*) where
  | start (receiver : ι) (appKit : AppKit)
  | stop
  | capture (event : NSEvent)
  | resignActive
  | fire (index : Nat)
  deriving DecidableEq, Repr

end LightPhi.MacOS
