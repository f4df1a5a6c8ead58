import LightPhi.Apple.Recording
import LightPhi.MacOS.SampleArena

/-! What the receivers of the macOS source see of the core: every offer as a batch, and nothing
else. -/
namespace LightPhi.MacOS
open Base Input Apple
open Fake (IInputReceiver)
variable {ι ω : Type*}

/-- The result that the adapter passes on as the decision. -/
def toResult : DeliveryDecision → DeliveryResult
  | .Accepted => .Accepted
  | .Busy => .Busy
  | .Rejected => .Rejected

@[simp] theorem toResult_toDecision (result : DeliveryResult) :
    toResult (toDecision result) = result := by
  cases result <;> rfl

/-- What the bound receiver sees of an event of the core. -/
def visible : Option ι → CoreEvent → Option (SourceEvent ι)
  | some receiver, .receive _ d decision =>
    some (.receive receiver (toBatch d) (toResult decision))
  | some receiver, .failed _ => some (.sourceFailed receiver .Overflow)
  | _, _ => none

theorem visible_none (events : List CoreEvent) :
    events.filterMap (visible (none : Option ι)) = [] := by
  have hnone (event : CoreEvent) : visible (none : Option ι) event = none := by
    cases event <;> rfl
  simp [hnone]

def SourceEvent.handed? : SourceEvent ι → Option (InputBatch × DeliveryResult)
  | .receive _ batch result => some (batch, result)
  | .started _ _ | .stopped | .sourceFailed _ _ => none

/-- What is handed over, with the answers, in order. -/
def handedOver (trace : List (SourceEvent ι)) : List (InputBatch × DeliveryResult) :=
  trace.filterMap SourceEvent.handed?

def offering? : CoreEvent → Option (InputBatch × DeliveryResult)
  | .receive _ d decision => some (toBatch d, toResult decision)
  | .called _ | .stopped | .failed _ => none

/-- What the core offers, as batches, with the answers, in order. -/
def offerings (trace : List CoreEvent) : List (InputBatch × DeliveryResult) :=
  trace.filterMap offering?

theorem handedOver_append (trace more : List (SourceEvent ι)) :
    handedOver (trace ++ more) = handedOver trace ++ handedOver more := List.filterMap_append ..

theorem offerings_append (trace more : List CoreEvent) :
    offerings (trace ++ more) = offerings trace ++ offerings more := List.filterMap_append ..

theorem handedOver_visible (receiver : ι) (events : List CoreEvent) :
    handedOver (events.filterMap (visible (some receiver))) = offerings events := by
  rw [handedOver, List.filterMap_filterMap, offerings]
  congr 1
  funext event
  cases event <;> rfl

/-- An offering, place by place, is an offer of the core. -/
theorem offer_of_offerings {events : List CoreEvent}
    {before after : List (InputBatch × DeliveryResult)} {next : InputBatch × DeliveryResult}
    (h : offerings events = before ++ next :: after) :
    ∃ earlier later mask d decision, events = earlier ++ .receive mask d decision :: later ∧
      offerings earlier = before ∧ next = (toBatch d, toResult decision) := by
  obtain ⟨earlier, rest, rfl, rfl, hrest⟩ := List.filterMap_eq_append_iff.mp h
  obtain ⟨silent, event, later, rfl, hsilent, hevent, -⟩ := List.filterMap_eq_cons_iff.mp hrest
  have hnothing : offerings silent = [] := List.filterMap_eq_nil_iff.mpr hsilent
  cases event with
  | called op | stopped => cases hevent
  | failed failure => cases hevent
  | receive mask d decision =>
    refine ⟨earlier ++ silent, later, mask, d, decision, by simp, ?_, (Option.some.inj hevent).symm⟩
    rw [offerings_append, hnothing, List.append_nil]
    rfl

theorem offerings_called (ops : List CoreOp) : offerings (ops.map .called) = [] := by
  have hcalled (op : CoreOp) : offering? (.called op) = none := rfl
  simp [offerings, hcalled]

/-- The adapter behind the given events of the core: its receiver has seen them since, and its
arena holds what was offered. -/
structure Shows (bound : Nat) (receiver : ι) (before : List CoreEvent)
    (seen : List (SourceEvent ι)) (r : Recorded (InputSourceImplementation ι (Observed ι ω))) :
    Prop where
  since : ∃ events, r.trace = before ++ events ∧
    r.target.world.trace = seen ++ events.filterMap (visible (some receiver))
  holds : r.target.Holds bound (offersOf r.trace)

/-- Bound to the receiver, and showing it the events as long as the core keeps to what it may
offer. -/
structure Attending (bound : Nat) (receiver : ι) (before : List CoreEvent)
    (seen : List (SourceEvent ι)) (r : Recorded (InputSourceImplementation ι (Observed ι ω))) :
    Prop where
  attached : r.target.receiver = some receiver
  shows : Watched.MayOffer bound r.trace → Shows bound receiver before seen r

section Adapter
open InputSourceImplementation
variable [IInputReceiver ι ω] {bound : Nat} {receiver : ι} {before : List CoreEvent}
  {seen : List (SourceEvent ι)} {r : Recorded (InputSourceImplementation ι (Observed ι ω))}

theorem Attending.receive (h : Attending bound receiver before seen r) (core : AppleDeliveryCore)
    (d : Delivery) : Attending bound receiver before seen (IDeliveryTarget.receive core d r).2 := by
  refine ⟨(receive_frame core d r.target).1.trans h.attached, fun hmay => ?_⟩
  obtain ⟨⟨events, htrace, hseen⟩, hholds⟩ := h.shows hmay.before
  obtain ⟨hslot, hown⟩ := Watched.own_of_mayOffer hmay
  have hbatch := (hholds.handOver hslot hown).1
  have hheld := (hholds.receive core hslot hown).2.2
  have hanswer := receive_bound h.attached core d
  rw [hbatch] at hanswer
  refine ⟨⟨events ++ [.receive core.capabilities d (IDeliveryTarget.receive core d r.target).1],
    ?_, ?_⟩, ?_⟩
  · rw [← List.append_assoc, ← htrace]
    rfl
  · have hworld : (IDeliveryTarget.receive core d r).2.target.world =
        (IDeliveryTarget.receive core d r.target).2.world := rfl
    rw [hworld, hanswer, List.filterMap_append, ← List.append_assoc, ← hseen]
    simp [IInputReceiver.receive, visible]
  · have hoffers : offersOf (IDeliveryTarget.receive core d r).2.trace = offersOf r.trace ++ [d] :=
      offersOf_append _ _
    rw [hoffers]
    exact hheld

theorem Attending.offers {r' : Recorded (InputSourceImplementation ι (Observed ι ω))}
    (h : Attending bound receiver before seen r) (hoffers : Offers r r') :
    Attending bound receiver before seen r' :=
  hoffers.preserves _ (fun core d _ hr => hr.receive core d) h

/-- A failure is the last the receiver sees. -/
theorem Attending.failed (h : Attending bound receiver before seen r) (core : AppleDeliveryCore)
    (failure : DeliveryFailure) (hmay : Watched.MayOffer bound r.trace) :
    Shows bound receiver before seen (IDeliveryTarget.failed core failure r) := by
  obtain ⟨⟨events, htrace, hseen⟩, hholds⟩ := h.shows hmay
  refine ⟨⟨events ++ [.failed failure], ?_, ?_⟩, ?_⟩
  · rw [← List.append_assoc, ← htrace]
    rfl
  · have hworld : (IDeliveryTarget.failed core failure r).target =
        IDeliveryTarget.failed core failure r.target := rfl
    rw [hworld, List.filterMap_append, ← List.append_assoc, ← hseen]
    simp [IDeliveryTarget.failed, h.attached, IInputReceiver.sourceFailed, visible, stopCapture]
  · have hoffers : offersOf (IDeliveryTarget.failed core failure r).trace = offersOf r.trace :=
      (offersOf_append _ _).trans (List.append_nil _)
    rw [hoffers]
    exact hholds.failed core failure

end Adapter

/-- A run in which no counter wraps offers what the adapter can tell apart. -/
theorem mayOffer_of_reaches {bound : Nat} (hpos : 0 < bound) {trace : List CoreEvent}
    {q : QueueModel}
    (h : QueueModel.Reaches QueueModel.FewEvents { capacity := bound } trace q) :
    Watched.MayOffer bound trace := by
  have hinRing := h.invariant
    ((QueueModel.inRing_calls hpos).weaken fun _ _ _ _ => trivial).preserves
    ⟨rfl, by simp, always_nil⟩
  have hnew := QueueModel.offersNew_of_reaches h
    ⟨Nat.zero_le _, Nat.zero_le _, Nat.zero_le _, Nat.zero_le _, by simp, le_rfl⟩ rfl
  exact ⟨hinRing.offers, hnew⟩

namespace InputSource

/-- A source whose core has had the given conversation. -/
structure Tracks (bound : Nat) (trace : List CoreEvent) (s : InputSource ι (Observed ι ω)) :
    Prop where
  reaches : QueueModel.Reaches QueueModel.FewEvents { capacity := bound } trace
    s.session.core.model
  wellFormed : s.session.core.WellFormed
  holds : s.session.target.Holds bound (offersOf trace)

variable [IInputReceiver ι ω]

/-- One call to the core of the source. -/
def performCore (s : InputSource ι ω) : CoreOp → InputSource ι ω
  | .start => { s with session := s.session.start }
  | .submit event => (s.submit event).2
  | .retryPending => s.retryPending.2
  | .stop => s.stopCore

theorem performCore_session (s : InputSource ι ω) (op : CoreOp) (trace : List CoreEvent) :
    (s.performCore op).session = ((s.session.recordedBehind trace).perform op).unrecorded := by
  rw [Session.unrecorded_perform]
  cases op <;> rfl

section Call
variable {bound : Nat} {trace : List CoreEvent} {s : InputSource ι (Observed ι ω)}

/-- A core that is not started leaves its target alone. -/
theorem perform_stopped {r : Session (Recorded (InputSourceImplementation ι (Observed ι ω)))}
    (h : r.core.started = false) {op : CoreOp} (hop : op ≠ .start) :
    ∃ events, (r.perform op).target = { r.target with trace := r.target.trace ++ events } ∧
      offersOf events = [] := by
  cases op with
  | start => exact absurd rfl hop
  | submit event =>
    refine ⟨[.called (.submit event)], ?_, rfl⟩
    simp [Session.perform, Session.submit, Session.submitEvent, h, Session.record]
  | retryPending =>
    refine ⟨[.called .retryPending], ?_, rfl⟩
    have hdrain (turns : Nat) (r : Session (Recorded (InputSourceImplementation ι (Observed ι ω))))
        (hr : r.core.started = false) : r.drainFrom turns = r := by
      cases turns with
      | zero => rfl
      | succ turns => simp [Session.drainFrom, AppleDeliveryCore.hasPending, hr]
    simp [Session.perform, Session.retryPending, Session.drain, hdrain, h, Session.record]
  | stop =>
    refine ⟨[.called .stop, .stopped], ?_, rfl⟩
    simp [Session.perform, Session.stop, h, Session.record]

/-- What the receiver that is bound sees of a call, and what the adapter is behind it. -/
theorem attending_perform {receiver : ι}
    {r : Session (Recorded (InputSourceImplementation ι (Observed ι ω)))}
    {before : List CoreEvent} {seen : List (SourceEvent ι)}
    (h : Attending bound receiver before seen r.target) {op : CoreOp} (hop : op ≠ .start)
    (hmay : Watched.MayOffer bound (r.perform op).target.trace) :
    Shows bound receiver before seen (r.perform op).target := by
  have hnoted {r : Session (Recorded (InputSourceImplementation ι (Observed ι ω)))}
      (h : Attending bound receiver before seen r.target) (event : CoreEvent)
      (hevent : visible (some receiver) event = none) (hoffer : event.offered? = none) :
      Attending bound receiver before seen (r.record event).target := by
    refine ⟨h.attached, fun hmay => ?_⟩
    obtain ⟨⟨events, htrace, hseen⟩, hholds⟩ := h.shows hmay.before
    refine ⟨⟨events ++ [event], ?_, ?_⟩, ?_⟩
    · rw [Session.record_trace, htrace, List.append_assoc]
    · rw [List.filterMap_append, ← List.append_assoc, ← hseen]
      simp [hevent, Session.record]
    · have hoffers : offersOf (r.target.trace ++ [event]) = offersOf r.target.trace := by
        simp [offersOf, hoffer]
      rw [Session.record_trace, hoffers]
      exact hholds
  cases op with
  | start => exact absurd rfl hop
  | submit event =>
    have hcalled := hnoted h (.called (.submit event)) rfl rfl
    have hleaves := Session.submitEvent_leaves event (r.record (.called (.submit event)))
    rw [Session.perform, Session.submit] at hmay ⊢
    generalize Session.submitEvent event (r.record (.called (.submit event))) = r' at *
    cases hleaves with
    | offers _ hoffers _ => exact (hcalled.offers hoffers).shows hmay
    | failed core => exact hcalled.failed core.halt .Overflow hmay.before
  | retryPending =>
    have hcalled := hnoted h (.called .retryPending) rfl rfl
    exact (hcalled.offers (Session.drain_offers _).1).shows hmay
  | stop =>
    have hcalled := hnoted h (.called .stop) rfl rfl
    have hstopped := hcalled.offers (Session.stop_offers (r.record (.called .stop))).1
    exact (hnoted hstopped .stopped rfl rfl).shows hmay

/-- One call to the core: it is a call of the queue model, and the receiver sees its events. -/
theorem Tracks.call (hpos : 0 < bound) (h : Tracks bound trace s)
    (hunbound : s.receiver = none → s.session.core.started = false) {op : CoreOp}
    (hop : op ≠ .start) (hfew : QueueModel.FewEvents trace s.session.core.model op) :
    ∃ events, QueueModel.Calls s.session.core.model op events
        (s.performCore op).session.core.model ∧
      Tracks bound (trace ++ events) (s.performCore op) ∧
      (s.performCore op).trace = s.trace ++ events.filterMap (visible s.receiver) := by
  have hsession := s.performCore_session op trace
  obtain ⟨events, hcall, htrace, hwf⟩ :=
    Session.perform_refines (s := s.session.recordedBehind trace) h.wellFormed op
  have hreaches : QueueModel.Reaches QueueModel.FewEvents { capacity := bound } (trace ++ events)
      (s.performCore op).session.core.model := by
    rw [hsession]
    exact .call h.reaches hfew hcall
  have hmay := mayOffer_of_reaches hpos hreaches
  have hwf' : (s.performCore op).session.core.WellFormed := by
    rw [hsession]
    exact hwf
  refine ⟨events, by rw [hsession]; exact hcall, ?_⟩
  have hbehind : ((s.session.recordedBehind trace).perform op).target.trace = trace ++ events :=
    htrace
  cases hreceiver : s.receiver with
  | none =>
    obtain ⟨noted, htarget, hoffers⟩ :=
      perform_stopped (r := s.session.recordedBehind trace) (hunbound hreceiver) hop
    obtain rfl : noted = events := by
      rw [htarget] at hbehind
      exact List.append_cancel_left hbehind
    have hsame : (s.performCore op).session.target = s.session.target := by
      rw [hsession]
      exact congrArg Recorded.target htarget
    refine ⟨⟨hreaches, hwf', ?_⟩, ?_⟩
    · rw [hsame, offersOf_append, hoffers, List.append_nil]
      exact h.holds
    · rw [InputSource.trace, hsame, visible_none, List.append_nil]
      rfl
  | some receiver =>
    have hattending : Attending bound receiver trace s.trace
        (s.session.recordedBehind trace).target :=
      ⟨hreceiver, fun _ => ⟨⟨[], (List.append_nil _).symm, (List.append_nil _).symm⟩, h.holds⟩⟩
    rw [← hbehind] at hmay
    obtain ⟨⟨shown, hshown, hseen⟩, hholds⟩ := attending_perform hattending hop hmay
    obtain rfl : shown = events := List.append_cancel_left (hshown.symm.trans hbehind)
    refine ⟨⟨hreaches, hwf', ?_⟩, ?_⟩
    · rw [hsession, ← hbehind]
      exact hholds
    · rw [InputSource.trace, hsession]
      exact hseen

end Call

/-- The calls to the core between two states of a source. What the monitor remembers and which
closures wait may change besides. -/
inductive Performs : InputSource ι ω → List CoreOp → InputSource ι ω → Prop
  | done (s) : Performs s [] s
  | monitor {s ops s'} (f : MacOSInputMonitor → MacOSInputMonitor)
      (h : Performs (s.updateMonitor f) ops s') : Performs s ops s'
  | queue {s ops s'} (mainQueue : List Nat)
      (h : Performs { s with mainQueue := mainQueue } ops s') : Performs s ops s'
  | call {s ops s'} (op : CoreOp) (h : Performs (s.performCore op) ops s') :
      Performs s (op :: ops) s'

theorem Performs.append {s s' s'' : InputSource ι ω} {ops ops' : List CoreOp}
    (h : Performs s ops s') (h' : Performs s' ops' s'') : Performs s (ops ++ ops') s'' := by
  induction h with
  | done s => exact h'
  | monitor f _ ih => exact .monitor f (ih h')
  | queue mainQueue _ ih => exact .queue mainQueue (ih h')
  | call op _ ih => exact .call op (ih h')

section Steps
variable {s : InputSource ι ω}

theorem retryIfPending_performs (monitor : MacOSInputMonitor) (pending : Bool)
    (s : InputSource ι ω) : Performs s [] (s.retryIfPending monitor pending) := by
  rw [retryIfPending]
  split_ifs
  · exact .done s
  · exact .monitor (fun monitor => { monitor with retryScheduled := true })
      (.queue (s.mainQueue ++ [monitor.object]) (.done _))

theorem served_performs (monitor : MacOSInputMonitor) (event : CapturedEvent)
    (s : InputSource ι ω) :
    Performs s [.submit event] (served monitor (s.submit event)) :=
  .call (.submit event) (retryIfPending_performs monitor _ _)

end Steps
end InputSource

/-- The report of the first ordinary pointer. -/
def MacOSInputMonitor.pointerReport (monitor : MacOSInputMonitor) (event : NSEvent) :
    List CapturedEvent :=
  if !event.tabletPoint && !monitor.observedTablet && !monitor.observedPointer then
    [{ kind := .DeviceObserved, capabilities := CapturedCapability.Timestamp }]
  else []

/-- The events a monitor submits for one AppKit event. -/
def MacOSInputMonitor.submissions (monitor : MacOSInputMonitor) (event : NSEvent) :
    List CapturedEvent :=
  if event.type = .tabletProximity then
    [{ kind := .DeviceObserved,
       capabilities := mapAppKitCapabilities event.capabilityMask event.eraserDevice }]
  else if event.type = .mouseCancelled then [{ kind := .Cancel }]
  else if !event.tabletPoint && !monitor.acceptPointerFallback then []
  else monitor.pointerReport event ++ (capturedEvent event monitor.eraser).toList

namespace InputSource
variable [IInputReceiver ι ω]

theorem captureWith_performs (monitor : MacOSInputMonitor) (event : NSEvent)
    (s : InputSource ι ω) :
    Performs s ((monitor.submissions event).map .submit) (s.captureWith monitor event) := by
  rw [captureWith, MacOSInputMonitor.submissions]
  split_ifs with hproximity hcancelled hpointer
  · exact .monitor _ (.call (.submit _) (.done _))
  · exact served_performs monitor _ s
  · exact .done s
  · rw [List.map_append]
    have hreport : Performs s ((monitor.pointerReport event).map .submit)
        (s.observePointer monitor event) := by
      rw [observePointer, MacOSInputMonitor.pointerReport]
      split_ifs
      · exact .monitor _ (.call (.submit _) (.done _))
      · exact .done s
    refine hreport.append ?_
    cases capturedEvent event monitor.eraser with
    | none => exact .done _
    | some captured => exact served_performs monitor captured _

/-- The calls to the core that a step of the main thread makes. -/
def coreOpsOf (s : InputSource ι ω) : SourceStep ι → List CoreOp
  | .capture event =>
    match s.monitor with
    | some monitor =>
      if monitor.eventMonitor then (monitor.submissions event).map .submit else []
    | none => []
  | .resignActive =>
    match s.monitor with
    | some monitor => if monitor.resignObserver then [.submit { kind := .Cancel }] else []
    | none => []
  | .fire index =>
    match s.mainQueue[index]?, s.monitor with
    | some object, some monitor => if monitor.object = object then [.retryPending] else []
    | _, _ => []
  | .start _ _ | .stop => []

theorem perform_performs (s : InputSource ι (Observed ι ω)) {step : SourceStep ι}
    (hstart : ∀ receiver appKit, step ≠ .start receiver appKit) (hstop : step ≠ .stop) :
    Performs s (s.coreOpsOf step) (s.perform step) := by
  cases step with
  | start receiver appKit => exact absurd rfl (hstart receiver appKit)
  | stop => exact absurd rfl hstop
  | capture event =>
    rw [coreOpsOf, perform, capture]
    cases s.monitor with
    | none => exact .done s
    | some monitor =>
      simp only
      split_ifs
      · exact captureWith_performs monitor event s
      · exact .done s
  | resignActive =>
    rw [coreOpsOf, perform, resignActive]
    cases s.monitor with
    | none => exact .done s
    | some monitor =>
      simp only
      split_ifs
      · exact served_performs monitor _ s
      · exact .done s
  | fire index =>
    rw [coreOpsOf, perform, fire]
    cases s.mainQueue[index]? with
    | none => exact .done s
    | some object =>
      refine .queue (s.mainQueue.eraseIdx index) ?_
      have hsame : InputSource.monitor { s with mainQueue := s.mainQueue.eraseIdx index } =
          s.monitor := rfl
      simp only [retry, hsame]
      cases s.monitor with
      | none => exact .done _
      | some monitor =>
        simp only
        split_ifs
        · exact .monitor (fun monitor => { monitor with retryScheduled := false })
            (.call .retryPending (retryIfPending_performs _ _ _))
        · exact .done _

end InputSource
end LightPhi.MacOS
