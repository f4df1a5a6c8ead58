import LightPhi.Fake.Refinement
import LightPhi.MacOS.Backend

/-! Sessions of the macOS source: the receiver, the core and the monitor agree on whether one is
open, and the receiver is called while it is. -/
namespace LightPhi.MacOS
open Base Input Apple
open Fake (IInputReceiver)

/-- What is seen of a source: the calls to its receiver, and Start and Stop as they return. -/
inductive SourceEvent (ι : Type*) where
  | started (receiver : ι) (result : Except InputSourceError Unit)
  | stopped
  | receive (receiver : ι) (batch : InputBatch) (result : DeliveryResult)
  | sourceFailed (receiver : ι) (error : InputSourceError)
  deriving DecidableEq

/-- A world in which what is seen of the source is written down. -/
structure Observed (ι ω : Type*) where
  world : ω
  trace : List (SourceEvent ι) := []

variable {ι ω : Type*}

instance [IInputReceiver ι ω] : IInputReceiver ι (Observed ι ω) where
  receive receiver batch observed :=
    let (result, world) := IInputReceiver.receive receiver batch observed.world
    (result, { world := world, trace := observed.trace ++ [.receive receiver batch result] })
  sourceFailed receiver error observed :=
    { world := IInputReceiver.sourceFailed receiver error observed.world,
      trace := observed.trace ++ [.sourceFailed receiver error] }

/-- The receiver of the open session: Start opens one, Stop and a failure of the source end it. -/
def sessionAfter (session : Option ι) : SourceEvent ι → Option ι
  | .started receiver (.ok _) => some receiver
  | .started _ (.error _) => session
  | .receive _ _ _ => session
  | .stopped | .sourceFailed _ _ => none

def sessionOf (trace : List (SourceEvent ι)) : Option ι := trace.foldl sessionAfter none

@[simp] theorem sessionOf_concat (trace : List (SourceEvent ι)) (event : SourceEvent ι) :
    sessionOf (trace ++ [event]) = sessionAfter (sessionOf trace) event := by
  simp [sessionOf]

/-- A receiver is called in its own session only, a failure ends the session, and Start is refused
as repeated exactly while one is open. -/
def SessionRule (before : List (SourceEvent ι)) : SourceEvent ι → Prop
  | .receive receiver _ _ => sessionOf before = some receiver
  | .sourceFailed receiver _ => sessionOf before = some receiver
  | .started _ result => result = .error .AlreadyStarted ↔ (sessionOf before).isSome
  | .stopped => True

namespace InputSourceImplementation
variable [IInputReceiver ι ω]

/-- What an offer leaves alone: the binding, the monitor, and the numbering of monitors. -/
theorem receive_frame (core : AppleDeliveryCore) (d : Delivery)
    (t : InputSourceImplementation ι ω) :
    (IDeliveryTarget.receive core d t).2.receiver = t.receiver ∧
      (IDeliveryTarget.receive core d t).2.monitor = t.monitor ∧
      (IDeliveryTarget.receive core d t).2.monitorsCreated = t.monitorsCreated := by
  cases hreceiver : t.receiver with
  | none => simp [receive_unbound hreceiver, hreceiver]
  | some receiver => simp [receive_bound hreceiver, hreceiver]

theorem offers_frame {t t' : InputSourceImplementation ι ω} (h : Offers t t') :
    t'.receiver = t.receiver ∧ t'.monitor = t.monitor ∧
      t'.monitorsCreated = t.monitorsCreated := by
  refine h.preserves (fun t' => t'.receiver = t.receiver ∧ t'.monitor = t.monitor ∧
    t'.monitorsCreated = t.monitorsCreated) (fun core d target hsame => ?_) ⟨rfl, rfl, rfl⟩
  obtain ⟨hreceiver, hmonitor, hcreated⟩ := receive_frame core d target
  exact ⟨hreceiver.trans hsame.1, hmonitor.trans hsame.2.1, hcreated.trans hsame.2.2⟩

/-- A failure unbinds the receiver and releases the monitor. -/
theorem failed_frame (core : AppleDeliveryCore) (failure : DeliveryFailure)
    (t : InputSourceImplementation ι ω) :
    (IDeliveryTarget.failed core failure t).receiver = none ∧
      (IDeliveryTarget.failed core failure t).monitor = none ∧
      (IDeliveryTarget.failed core failure t).monitorsCreated = t.monitorsCreated := by
  cases hreceiver : t.receiver <;> simp [IDeliveryTarget.failed, hreceiver, stopCapture]

/-- The rule has held so far, and the session is that of the bound receiver. -/
structure InSession (t : InputSourceImplementation ι (Observed ι ω)) : Prop where
  rule : Always SessionRule t.world.trace
  session : sessionOf t.world.trace = t.receiver

theorem InSession.receive {t : InputSourceImplementation ι (Observed ι ω)} (h : t.InSession)
    (core : AppleDeliveryCore) (d : Delivery) :
    (IDeliveryTarget.receive core d t).2.InSession := by
  cases hreceiver : t.receiver with
  | none => simpa [receive_unbound hreceiver] using h
  | some receiver =>
    have hsession := h.session.trans hreceiver
    rw [receive_bound hreceiver]
    exact ⟨(always_concat _ _).mpr ⟨h.rule, hsession⟩, (sessionOf_concat _ _).trans h.session⟩

theorem InSession.failed {t : InputSourceImplementation ι (Observed ι ω)} (h : t.InSession)
    (core : AppleDeliveryCore) (failure : DeliveryFailure) :
    (IDeliveryTarget.failed core failure t).InSession := by
  cases hreceiver : t.receiver with
  | none =>
    simp only [IDeliveryTarget.failed, hreceiver]
    exact ⟨h.rule, h.session.trans hreceiver⟩
  | some receiver =>
    simp only [IDeliveryTarget.failed, hreceiver]
    exact ⟨(always_concat _ _).mpr ⟨h.rule, h.session.trans hreceiver⟩, sessionOf_concat _ _⟩

theorem InSession.offers {t t' : InputSourceImplementation ι (Observed ι ω)} (h : t.InSession)
    (hoffers : Offers t t') : t'.InSession :=
  hoffers.preserves InSession (fun core d _ ht => ht.receive core d) h

end InputSourceImplementation

namespace InputSource
open InputSourceImplementation

/-- Between the calls, the receiver, the core and the monitor agree. -/
structure Consistent (s : InputSource ι ω) : Prop where
  receiver : s.receiver.isSome ↔ s.session.core.started
  monitor : s.session.core.started ↔ s.monitor.isSome

def note (event : SourceEvent ι) : InputSource ι (Observed ι ω) → InputSource ι (Observed ι ω) :=
  updateTarget fun t => { t with world := { t.world with trace := t.world.trace ++ [event] } }

def trace (s : InputSource ι (Observed ι ω)) : List (SourceEvent ι) :=
  s.session.target.world.trace

/-- A source whose steps have kept the rule so far. -/
structure Orderly (s : InputSource ι (Observed ι ω)) : Prop where
  consistent : s.Consistent
  inSession : s.session.target.InSession

section Orderly
variable {s : InputSource ι (Observed ι ω)}

theorem Orderly.updateMonitor (h : s.Orderly) (f : MacOSInputMonitor → MacOSInputMonitor) :
    (s.updateMonitor f).Orderly := by
  refine ⟨⟨h.consistent.receiver, ?_⟩, h.inSession.rule, h.inSession.session⟩
  simpa [InputSource.updateMonitor, updateTarget, InputSource.monitor] using h.consistent.monitor

theorem Orderly.onMainQueue (h : s.Orderly) (mainQueue : List Nat) :
    ({ s with mainQueue := mainQueue } : InputSource ι (Observed ι ω)).Orderly :=
  ⟨⟨h.consistent.receiver, h.consistent.monitor⟩, h.inSession⟩

theorem Orderly.served {outcome : Bool × InputSource ι (Observed ι ω)} (h : outcome.2.Orderly)
    (monitor : MacOSInputMonitor) : (served monitor outcome).Orderly := by
  rw [InputSource.served, retryIfPending]
  split_ifs
  · exact h
  · exact (h.updateMonitor _).onMainQueue _

end Orderly

variable [IInputReceiver ι ω]

/-- One step of a source, written down. -/
def perform (s : InputSource ι (Observed ι ω)) : SourceStep ι → InputSource ι (Observed ι ω)
  | .start receiver appKit =>
    (s.start receiver appKit).2.note (.started receiver (s.start receiver appKit).1)
  | .stop => s.stop.note .stopped
  | .capture event => s.capture event
  | .resignActive => s.resignActive
  | .fire index => s.fire index

/-- Any sequence of steps of a source. -/
def run (source : InputSource ι (Observed ι ω)) (steps : List (SourceStep ι)) :
    InputSource ι (Observed ι ω) := steps.foldl perform source

section Orderly
variable {s : InputSource ι (Observed ι ω)}

/-- Whatever a call to the core does to its target. -/
theorem Orderly.leaves (h : s.Orderly) {session : Session (InputSourceImplementation ι _)}
    (hleaves : s.session.Leaves session) :
    ({ s with session := session } : InputSource ι (Observed ι ω)).Orderly := by
  obtain ⟨⟨hreceiver, hmonitor⟩, hsession⟩ := h
  cases hleaves with
  | offers session hoffers hstarted =>
    obtain ⟨hbound, hkept, -⟩ := offers_frame hoffers
    refine ⟨⟨?_, ?_⟩, hsession.offers hoffers⟩
    · rwa [InputSource.receiver, hbound, hstarted]
    · rwa [InputSource.monitor, hkept, hstarted]
  | failed core =>
    obtain ⟨hbound, hkept, -⟩ := failed_frame core.halt .Overflow s.session.target
    refine ⟨⟨?_, ?_⟩, hsession.failed _ _⟩
    · simp [InputSource.receiver, hbound]
    · simp [InputSource.monitor, hkept]

theorem Orderly.submit (h : s.Orderly) (event : CapturedEvent) : (s.submit event).2.Orderly :=
  h.leaves (Session.submitEvent_leaves event s.session)

theorem Orderly.retryPending (h : s.Orderly) : s.retryPending.2.Orderly := by
  obtain ⟨hoffers, hstarted⟩ := Session.drain_offers s.session
  exact h.leaves (.offers _ hoffers hstarted)

theorem orderly_mainThread : MainThreadPreserves (Orderly (ι := ι) (ω := ω)) where
  reported h f _ _ := (h.updateMonitor f).submit _
  submitted h _ event := (h.submit event).served _
  retried h _ _ := ((h.onMainQueue _).updateMonitor _).retryPending.served _
  dropped h _ _ := h.onMainQueue _

theorem Orderly.stop (h : s.Orderly) : (s.stop.note .stopped).Orderly := by
  obtain ⟨target, hoffers, htarget, hstopped⟩ := stop_offers s
  have hmonitor : target.monitor = none := (offers_frame hoffers).2.1
  have hsession : s.session.target.stopCapture.InSession := ⟨h.inSession.rule, h.inSession.session⟩
  refine ⟨⟨?_, ?_⟩, ⟨?_, ?_⟩⟩
  · simp [note, updateTarget, InputSource.receiver, htarget, hstopped]
  · simp [note, updateTarget, InputSource.monitor, htarget, hstopped, hmonitor]
  · simp only [note, updateTarget, htarget]
    exact (always_concat _ _).mpr ⟨(hsession.offers hoffers).rule, trivial⟩
  · simp [note, updateTarget, htarget, sessionAfter]

theorem Orderly.start (h : s.Orderly) (receiver : ι) (appKit : AppKit) :
    ((s.start receiver appKit).2.note
      (.started receiver (s.start receiver appKit).1)).Orderly := by
  have hcases := start_cases receiver appKit s
  generalize s.start receiver appKit = outcome at hcases ⊢
  obtain ⟨⟨hreceiver, hmonitor⟩, hrule, hsession⟩ := h
  cases hcases with
  | bound hbound =>
    refine ⟨⟨hreceiver, hmonitor⟩, (always_concat _ _).mpr ⟨hrule, ?_⟩, ?_⟩
    · rw [SessionRule, hsession]
      exact iff_of_true rfl hbound
    · exact (sessionOf_concat _ _).trans hsession
  | started monitor hbound _ =>
    have hnone : sessionOf s.session.target.world.trace = none := hsession.trans hbound
    refine ⟨⟨?_, ?_⟩, (always_concat _ _).mpr ⟨hrule, ?_⟩, sessionOf_concat _ _⟩
    · simp [note, updateTarget, InputSource.receiver]
    · simp [note, updateTarget, InputSource.monitor]
    · simp [SessionRule, hnone]
  | unavailable hbound =>
    have hnone : sessionOf s.session.target.world.trace = none := hsession.trans hbound
    refine ⟨⟨?_, ?_⟩, (always_concat _ _).mpr ⟨hrule, ?_⟩, (sessionOf_concat _ _).trans hnone⟩
    · simp [note, updateTarget, InputSource.receiver]
    · simp [note, updateTarget, InputSource.monitor]
    · simp [SessionRule, hnone]

/-- Every step keeps the rule. -/
theorem Orderly.perform (h : s.Orderly) (step : SourceStep ι) : (s.perform step).Orderly := by
  cases step with
  | start receiver appKit => exact h.start receiver appKit
  | stop => exact h.stop
  | capture event => exact orderly_mainThread.capture h event
  | resignActive => exact orderly_mainThread.resignActive h
  | fire index => exact orderly_mainThread.fire h index

end Orderly

omit [IInputReceiver ι ω] in
/-- A source that Create returns: nobody is bound, and nothing was seen. -/
theorem orderly_of_create {memory : Fake.Memory} {descriptor : InputSourceDescriptor} {world : ω}
    {source : InputSource ι (Observed ι ω)}
    (h : create memory descriptor { world := world } = .ok source) : source.Orderly := by
  rw [create] at h
  split_ifs at h
  obtain rfl := Except.ok.inj h
  exact ⟨⟨by simp [receiver, Session.create, AppleDeliveryCore.create],
    by simp [monitor, Session.create, AppleDeliveryCore.create]⟩, always_nil, rfl⟩

theorem run_orderly {source : InputSource ι (Observed ι ω)} (h : source.Orderly)
    (steps : List (SourceStep ι)) : (run source steps).Orderly := by
  induction steps using List.reverseRecOn with
  | nil => exact h
  | append_singleton steps step ih =>
    rw [run, List.foldl_concat]
    exact ih.perform step

/-- For every order of steps and whatever AppKit and the receivers answer, the receiver, the core
and the monitor agree between the steps, and the receiver is called in its session only. -/
theorem sessions_agree {memory : Fake.Memory} {descriptor : InputSourceDescriptor} {world : ω}
    {source : InputSource ι (Observed ι ω)}
    (h : create memory descriptor { world := world } = .ok source)
    (steps : List (SourceStep ι)) :
    (run source steps).Consistent ∧ Always SessionRule (run source steps).trace :=
  ⟨(run_orderly (orderly_of_create h) steps).consistent,
    (run_orderly (orderly_of_create h) steps).inSession.rule⟩

/-- One slot, any pointer, and a receiver that is busy from its second batch on. -/
def oneSlot : InputSource Unit (Observed Unit Fake.Answers) :=
  { session := .create 1
      { samples := [{}]
        acceptPointerFallback := true
        world := { world := { answer := fun offer => if offer = 0 then .Accepted else .Busy } } } }

theorem oneSlot_created : create {}
    { maximumQueuedBatches := 1, acceptPointerFallback := true }
    { world := { answer := fun offer => if offer = 0 then .Accepted else .Busy } } =
      .ok oneSlot := by
  rfl

/-- The second drag finds the slot taken. -/
def overflowing : List (SourceStep Unit) :=
  [.start () {}, .capture { type := .leftMouseDown }, .capture { type := .leftMouseDragged },
   .capture { type := .leftMouseDragged }, .start () {}]

theorem sessions_agree_overflow :
    (run oneSlot overflowing).Consistent ∧ Always SessionRule (run oneSlot overflowing).trace :=
  sessions_agree oneSlot_created overflowing

end InputSource
end LightPhi.MacOS
