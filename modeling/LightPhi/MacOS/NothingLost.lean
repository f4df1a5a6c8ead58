import LightPhi.MacOS.Handover
import LightPhi.MacOS.Monitors

/-! Within one session the receiver is handed the captured events, translated, in order and each
once; what it has not accepted waits, and a closure is there to offer it. -/
namespace LightPhi.MacOS
open Base Input Apple
open Fake (IInputReceiver)
variable {ι ω : Type*}

/-- Which end of the pen is used, behind a step. -/
def eraserAfter (eraser : Bool) : SourceStep ι → Bool
  | .capture event => if event.type = .tabletProximity then event.eraserDevice else eraser
  | _ => eraser

/-- The contact events a step stands for. -/
def contactEventsOf (acceptPointerFallback eraser : Bool) : SourceStep ι → List CapturedEvent
  | .capture event =>
    if event.type = .tabletProximity then []
    else if event.type = .mouseCancelled then [{ kind := .Cancel }]
    else if !event.tabletPoint && !acceptPointerFallback then []
    else (capturedEvent event eraser).toList
  | .resignActive => [{ kind := .Cancel }]
  | .start _ _ | .stop | .fire _ => []

/-- The contact events the steps of a session stand for, whatever its receiver answers. -/
def contactEvents (acceptPointerFallback : Bool) :
    Bool → List (SourceStep ι) → List CapturedEvent
  | _, [] => []
  | eraser, step :: steps =>
    contactEventsOf acceptPointerFallback eraser step ++
      contactEvents acceptPointerFallback (eraserAfter eraser step) steps

theorem contactEvents_concat (acceptPointerFallback eraser : Bool) (steps : List (SourceStep ι))
    (step : SourceStep ι) :
    contactEvents acceptPointerFallback eraser (steps ++ [step]) =
      contactEvents acceptPointerFallback eraser steps ++
        contactEventsOf acceptPointerFallback (steps.foldl eraserAfter eraser) step := by
  induction steps generalizing eraser with
  | nil => simp [contactEvents]
  | cons first steps ih => simp [contactEvents, ih]

/-- Whether what waits is lost by what is seen. -/
def SourceEvent.abandons : SourceEvent ι → Bool
  | .receive _ _ .Rejected | .sourceFailed _ _ => true
  | _ => false

def SourceEvent.acceptedBatch? : SourceEvent ι → Option InputBatch
  | .receive _ batch .Accepted => some batch
  | _ => none

/-- The batches that were accepted, in order. -/
def acceptedBatches (trace : List (SourceEvent ι)) : List InputBatch :=
  trace.filterMap SourceEvent.acceptedBatch?

section Visible
variable (receiver : ι) (events : List CoreEvent)

theorem acceptedBatches_visible :
    acceptedBatches (events.filterMap (visible (some receiver))) =
      (acceptedOf events).map toBatch := by
  rw [acceptedBatches, acceptedOf, List.filterMap_filterMap, List.map_filterMap]
  congr 1
  funext event
  cases event with
  | receive mask d decision => cases decision <;> rfl
  | called op | stopped | failed failure => rfl

theorem nothingAbandoned_of_visible
    (h : ∀ event ∈ events.filterMap (visible (some receiver)), event.abandons = false) :
    NothingAbandoned events := by
  intro event hevent
  cases event with
  | called op | stopped => rfl
  | receive mask d decision =>
    have hshown := h _ (List.mem_filterMap.mpr ⟨_, hevent, rfl⟩)
    cases decision with
    | Accepted | Busy => rfl
    | Rejected => exact absurd hshown (by simp [SourceEvent.abandons, toResult])
  | failed failure =>
    have hshown := h _ (List.mem_filterMap.mpr ⟨_, hevent, rfl⟩)
    exact absurd hshown (by simp [SourceEvent.abandons])

end Visible

/-- Two lists of events that mean the same deliveries. -/
def SameMeaning (events events' : List CapturedEvent) : Prop :=
  ∀ c : Cursor, c.translateAll events = c.translateAll events'

theorem SameMeaning.append {events events' more more' : List CapturedEvent}
    (h : SameMeaning events events') (h' : SameMeaning more more') :
    SameMeaning (events ++ more) (events' ++ more') := by
  intro c
  rw [Cursor.translateAll_append, Cursor.translateAll_append, h c, h' _]

theorem sameMeaning_device (capabilities : UInt16) :
    SameMeaning [{ kind := .DeviceObserved, capabilities := capabilities }] [] := fun _ => rfl

/-- A monitor that listens. -/
structure Listening (acceptPointerFallback eraser : Bool) (monitor : MacOSInputMonitor) : Prop where
  eventMonitor : monitor.eventMonitor
  resignObserver : monitor.resignObserver
  acceptPointerFallback : monitor.acceptPointerFallback = acceptPointerFallback
  eraser : monitor.eraser = eraser

namespace InputSource
open InputSourceImplementation
variable {acceptPointerFallback eraser : Bool} {monitor : MacOSInputMonitor}
  {s : InputSource ι ω}

/-- What is submitted for a step means what the step stands for. -/
theorem submits_meaning (h : Listening acceptPointerFallback eraser monitor)
    (hm : s.monitor = some monitor) (step : SourceStep ι) :
    SameMeaning (submittedBy (s.coreOpsOf step))
      (contactEventsOf acceptPointerFallback eraser step) := by
  have hmap (captured : List CapturedEvent) : submittedBy (captured.map .submit) = captured := by
    simp [submittedBy, Function.comp_def, CoreOp.submitted?]
  cases step with
  | start receiver appKit | stop => exact fun _ => rfl
  | resignActive =>
    simp only [coreOpsOf, hm, h.resignObserver, if_true]
    exact fun _ => rfl
  | fire index =>
    have hnone : submittedBy (s.coreOpsOf (.fire index : SourceStep ι)) = [] := by
      rw [coreOpsOf]
      split
      · split_ifs <;> rfl
      · rfl
    rw [hnone]
    exact fun _ => rfl
  | capture event =>
    simp only [coreOpsOf, hm, h.eventMonitor, if_true, hmap]
    rw [MacOSInputMonitor.submissions, contactEventsOf, h.acceptPointerFallback, h.eraser]
    split_ifs
    · exact sameMeaning_device _
    · exact fun _ => rfl
    · exact fun _ => rfl
    · have hreport : SameMeaning (monitor.pointerReport event) [] := by
        rw [MacOSInputMonitor.pointerReport]
        split_ifs
        · exact sameMeaning_device _
        · exact fun _ => rfl
      exact hreport.append fun _ => rfl

/-- The monitor, while there is one, listens. -/
def Listens (acceptPointerFallback eraser : Bool) (s : InputSource ι ω) : Prop :=
  ∀ monitor, s.monitor = some monitor → Listening acceptPointerFallback eraser monitor

/-- Which end is used is what a monitor notes of the pen. -/
theorem listening_after (h : Listening acceptPointerFallback eraser monitor)
    (step : SourceStep ι) :
    Listening acceptPointerFallback (eraserAfter eraser step) (monitor.after step) := by
  cases step with
  | start receiver appKit | stop | resignActive | fire index => exact h
  | capture event =>
    rw [MacOSInputMonitor.after, if_pos h.eventMonitor, MacOSInputMonitor.noting, eraserAfter]
    split_ifs
    · exact ⟨h.eventMonitor, h.resignObserver, h.acceptPointerFallback, rfl⟩
    · exact h
    · exact h
    · exact ⟨h.eventMonitor, h.resignObserver, h.acceptPointerFallback, h.eraser⟩
    · exact h

theorem listening_congr {left : MacOSInputMonitor} (hsame : left.unscheduled = monitor.unscheduled)
    (h : Listening acceptPointerFallback eraser monitor) :
    Listening acceptPointerFallback eraser left :=
  ⟨(congrArg MacOSInputMonitor.eventMonitor hsame).trans h.eventMonitor,
    (congrArg MacOSInputMonitor.resignObserver hsame).trans h.resignObserver,
    (congrArg MacOSInputMonitor.acceptPointerFallback hsame).trans h.acceptPointerFallback,
    (congrArg MacOSInputMonitor.eraser hsame).trans h.eraser⟩

theorem Listens.perform [IInputReceiver ι ω] {s : InputSource ι (Observed ι ω)}
    (h : Listens acceptPointerFallback eraser s) {step : SourceStep ι}
    (hstart : ∀ receiver appKit, step ≠ .start receiver appKit) (hstop : step ≠ .stop) :
    Listens acceptPointerFallback (eraserAfter eraser step) (s.perform step) := by
  intro left hleft
  obtain ⟨monitor, hm, hsame⟩ := perform_monitor hstart hstop hleft
  exact listening_congr hsame (listening_after (h monitor hm) step)

/-- What a monitor that has started is. -/
theorem listening_start (appKit : AppKit) (monitor : MacOSInputMonitor)
    (h : (monitor.start appKit).1 = true) :
    Listening monitor.acceptPointerFallback monitor.eraser (monitor.start appKit).2 := by
  rw [MacOSInputMonitor.start] at h ⊢
  split_ifs at h ⊢
  exact ⟨h, rfl, rfl, rfl⟩

section Session
variable [IInputReceiver ι ω] {bound : Nat} {before steps : List (SourceStep ι)}
  {trace : List CoreEvent} {s : InputSource ι (Observed ι ω)} {receiver : ι} {appKit : AppKit}

/-- A Start that succeeds leaves the core empty and a monitor that listens. -/
theorem start_succeeds (h : (s.start receiver appKit).1 = .ok ()) :
    (s.start receiver appKit).2.receiver = some receiver ∧
      (s.start receiver appKit).2.session.core = s.session.core.start ∧
      Listens s.session.target.acceptPointerFallback false (s.start receiver appKit).2 := by
  have hlistens := listening_start appKit
    { object := s.session.target.monitorsCreated
      acceptPointerFallback := s.session.target.acceptPointerFallback }
  rcases hstart : MacOSInputMonitor.start appKit
    { object := s.session.target.monitorsCreated
      acceptPointerFallback := s.session.target.acceptPointerFallback } with ⟨started, monitor⟩
  rw [hstart] at hlistens
  rw [InputSource.start] at h ⊢
  split_ifs at h ⊢ with hbound
  simp only [bind, updateTarget, Session.start, startCapture, hstart] at h ⊢
  cases started with
  | false => simp at h
  | true =>
    refine ⟨rfl, rfl, fun other hm => ?_⟩
    obtain rfl := Option.some.inj hm
    exact hlistens rfl

/-- A step of a session: capture, deactivation or a closure. -/
def InSession (step : SourceStep ι) : Prop :=
  (∀ receiver appKit, step ≠ .start receiver appKit) ∧ step ≠ .stop

/-- The calls of a session neither start the core nor stop it. -/
def Underway (_ : List CoreOp) (op : CoreOp) : Prop := op ≠ .start ∧ op ≠ .stop

/-- A source in a session: the calls since its Start, and, while nothing was abandoned, a monitor
that submits what the steps stand for. -/
structure Conducted (receiver : ι) (acceptPointerFallback : Bool)
    (first : InputSource ι (Observed ι ω)) (steps : List (SourceStep ι)) (ops : List CoreOp)
    (events : List CoreEvent) (s : InputSource ι (Observed ι ω)) : Prop where
  opened : sessionOf first.trace = some receiver
  serves : Serves QueueModel.Calls first.session.core.model ops events s.session.core.model
  running : ∀ op ∈ ops, op ≠ .start ∧ op ≠ .stop
  shown : s.trace = first.trace ++ events.filterMap (visible (some receiver))
  listens : Listens acceptPointerFallback (steps.foldl eraserAfter false) s
  meaning : NothingAbandoned events →
    SameMeaning (submittedBy ops) (contactEvents acceptPointerFallback false steps)

omit [IInputReceiver ι ω] in
/-- The session goes on until the source fails. -/
theorem sessionOf_visible {past : List (SourceEvent ι)} (hpast : sessionOf past = some receiver)
    (events : List CoreEvent) :
    (∀ other, sessionOf (past ++ events.filterMap (visible (some receiver))) = some other →
        other = receiver) ∧
      (NothingAbandoned events →
        sessionOf (past ++ events.filterMap (visible (some receiver))) = some receiver) := by
  induction events using List.reverseRecOn with
  | nil =>
    rw [List.filterMap_nil, List.append_nil, hpast]
    exact ⟨fun other he => (Option.some.inj he).symm, fun _ => rfl⟩
  | append_singleton events event ih =>
    have hclean : NothingAbandoned (events ++ [event]) → NothingAbandoned events ∧
        event.abandons = false := fun h =>
      ⟨(nothingAbandoned_append.mp h).1, h event (by simp)⟩
    rw [List.filterMap_append, ← List.append_assoc]
    cases event with
    | called op | stopped =>
      rw [List.filterMap_cons_none rfl, List.filterMap_nil, List.append_nil]
      exact ⟨ih.1, fun h => ih.2 (hclean h).1⟩
    | receive mask d decision =>
      have hshown : visible (some receiver) (.receive mask d decision) =
        some (.receive receiver (toBatch d) (toResult decision)) := rfl
      rw [List.filterMap_cons_some hshown, List.filterMap_nil, sessionOf_concat]
      exact ⟨ih.1, fun h => ih.2 (hclean h).1⟩
    | failed failure =>
      have hshown : visible (some receiver) (.failed failure) =
        some (.sourceFailed receiver .Overflow) := rfl
      rw [List.filterMap_cons_some hshown, List.filterMap_nil, sessionOf_concat]
      exact ⟨by simp [sessionAfter], fun h => absurd (hclean h).2 (by simp [CoreEvent.abandons])⟩

section Conducted
variable {first : InputSource ι (Observed ι ω)} {ops : List CoreOp} {events : List CoreEvent}
  {acceptPointerFallback : Bool} {all : List (SourceStep ι)}

omit [IInputReceiver ι ω] in
/-- Only the receiver of the session is bound, and it is until something is abandoned. -/
theorem Conducted.receiver_eq
    (h : Conducted receiver acceptPointerFallback first steps ops events s) (horderly : s.Orderly) :
    (∀ other, s.receiver = some other → other = receiver) ∧
      (NothingAbandoned events → s.receiver = some receiver) := by
  have hsession : sessionOf s.trace = s.receiver := horderly.inSession.session
  rw [← hsession, h.shown]
  exact sessionOf_visible h.opened events

/-- One more step. -/
theorem Conducted.step {step : SourceStep ι} (hpos : 0 < bound)
    (h : Conducted receiver acceptPointerFallback first steps ops events s)
    (hreached : Reached bound all trace s) (hstep : InSession step)
    (hfew : 2 * (all ++ [step]).length < 2 ^ 64) :
    ∃ more, Reached bound (all ++ [step]) (trace ++ more) (s.perform step) ∧
      Conducted receiver acceptPointerFallback first (steps ++ [step]) (ops ++ s.coreOpsOf step)
        (events ++ more) (s.perform step) := by
  obtain ⟨more, hserves, hshown, hnext⟩ := hreached.serve hpos hstep.1 hstep.2 hfew
  obtain ⟨hother, hbound⟩ := h.receiver_eq hreached.orderly
  have hops := coreOpsOf_running s step
  have hsame : more.filterMap (visible s.receiver) = more.filterMap (visible (some receiver)) := by
    cases hreceiver : s.receiver with
    | some other => rw [hother other hreceiver]
    | none =>
      have hiff := hreached.orderly.consistent.receiver
      rw [hreceiver] at hiff
      have hstopped : s.session.core.started = false := by simpa using hiff
      rw [called_of_stopped hserves hops hstopped, visible_called, visible_called]
  refine ⟨more, hnext, h.opened, h.serves.append hserves,
    List.forall_mem_append.mpr ⟨h.running, hops⟩, ?_, ?_, fun hclean => ?_⟩
  · rw [hshown, h.shown, hsame, List.filterMap_append, List.append_assoc]
  · rw [List.foldl_concat]
    exact h.listens.perform hstep.1 hstep.2
  · have hbefore := (nothingAbandoned_append.mp hclean).1
    have hstarted : s.session.core.started := by
      rw [← hreached.orderly.consistent.receiver, hbound hbefore]
      rfl
    obtain ⟨monitor, hm⟩ := Option.isSome_iff_exists.mp
      (hreached.orderly.consistent.monitor.mp hstarted)
    have hsubmitted : submittedBy (ops ++ s.coreOpsOf step) =
        submittedBy ops ++ submittedBy (s.coreOpsOf step) := List.filterMap_append
    rw [contactEvents_concat, hsubmitted]
    exact (h.meaning hbefore).append (submits_meaning (h.listens monitor hm) hm step)

/-- Any number of steps. -/
theorem Conducted.run (hpos : 0 < bound)
    (hfirst : Conducted receiver acceptPointerFallback first [] [] [] first)
    (hreached : Reached bound before trace first) (steps : List (SourceStep ι))
    (hsteps : ∀ step ∈ steps, InSession step) (hfew : 2 * (before ++ steps).length < 2 ^ 64) :
    ∃ ops events, Reached bound (before ++ steps) (trace ++ events) (run first steps) ∧
      Conducted receiver acceptPointerFallback first steps ops events (run first steps) := by
  induction steps using List.reverseRecOn with
  | nil =>
    refine ⟨[], [], ?_, hfirst⟩
    rw [List.append_nil, List.append_nil]
    exact hreached
  | append_singleton steps step ih =>
    obtain ⟨hearlier, hstep⟩ := List.forall_mem_append.mp hsteps
    rw [← List.append_assoc] at hfew ⊢
    obtain ⟨ops, events, hbehind, hconducted⟩ := ih hearlier
      (by rw [List.length_append] at hfew; omega)
    obtain ⟨more, hnext, hmore⟩ := hconducted.step hpos hbehind
      (hstep step (List.mem_singleton_self _)) hfew
    have hlast : InputSource.run first (steps ++ [step]) =
        (InputSource.run first steps).perform step := List.foldl_concat ..
    rw [hlast]
    rw [List.append_assoc trace] at hnext
    exact ⟨_, _, hnext, hmore⟩

end Conducted

theorem offers_fallback {t t' : InputSourceImplementation ι ω} (h : Offers t t') :
    t'.acceptPointerFallback = t.acceptPointerFallback := by
  refine h.preserves (fun t' => t'.acceptPointerFallback = t.acceptPointerFallback)
    (fun core d target hsame => ?_) rfl
  cases hreceiver : target.receiver with
  | none => rwa [receive_unbound hreceiver]
  | some receiver => rwa [receive_bound hreceiver]

/-- Whether ordinary pointers count is settled when the source is made. -/
theorem perform_fallback (s : InputSource ι (Observed ι ω)) (step : SourceStep ι) :
    (s.perform step).session.target.acceptPointerFallback =
      s.session.target.acceptPointerFallback := by
  have hcall (s : InputSource ι (Observed ι ω)) {op : CoreOp} (hop : op ≠ .start ∧ op ≠ .stop) :
      (s.performCore op).session.target.acceptPointerFallback =
        s.session.target.acceptPointerFallback := by
    cases op with
    | start => exact absurd rfl hop.1
    | stop => exact absurd rfl hop.2
    | submit event =>
      have hleaves := Session.submitEvent_leaves event s.session
      have hsession : (s.performCore (.submit event)).session = s.session.submitEvent event := rfl
      rw [hsession]
      generalize s.session.submitEvent event = session at hleaves ⊢
      cases hleaves with
      | offers _ hoffers _ => exact offers_fallback hoffers
      | failed core =>
        simp only [IDeliveryTarget.failed]
        cases s.session.target.receiver <;> rfl
    | retryPending => exact offers_fallback (Session.drain_offers s.session).1
  have hperforms {s s' : InputSource ι (Observed ι ω)} {ops : List CoreOp}
      (h : Performs s ops s') (hops : ∀ op ∈ ops, op ≠ .start ∧ op ≠ .stop) :
      s'.session.target.acceptPointerFallback = s.session.target.acceptPointerFallback := by
    induction h with
    | done s => rfl
    | monitor f _ ih => exact ih hops
    | queue mainQueue _ ih => exact ih hops
    | call op _ ih =>
      obtain ⟨hop, hlater⟩ := List.forall_mem_cons.mp hops
      exact (ih hlater).trans (hcall _ hop)
  cases step with
  | start receiver appKit =>
    have hcases := start_cases receiver appKit s
    rw [perform]
    generalize s.start receiver appKit = outcome at hcases ⊢
    cases hcases <;> rfl
  | stop =>
    obtain ⟨target, hoffers, htarget, -⟩ := stop_offers s
    have hstopped : (s.perform .stop).session.target.acceptPointerFallback =
        s.stop.session.target.acceptPointerFallback := rfl
    have hsame : target.acceptPointerFallback =
        s.session.target.stopCapture.acceptPointerFallback := offers_fallback hoffers
    rw [hstopped, htarget]
    exact hsame
  | capture event | resignActive | fire index =>
    exact hperforms (perform_performs s (by simp) (by simp)) (coreOpsOf_running s _)

theorem run_fallback {memory : Fake.Memory} {descriptor : InputSourceDescriptor} {world : ω}
    {source : InputSource ι (Observed ι ω)}
    (h : create memory descriptor { world := world } = .ok source) (steps : List (SourceStep ι)) :
    (run source steps).session.target.acceptPointerFallback =
      descriptor.acceptPointerFallback := by
  induction steps using List.reverseRecOn with
  | nil =>
    rw [create] at h
    split_ifs at h
    obtain rfl := Except.ok.inj h
    rfl
  | append_singleton steps step ih =>
    rw [run, List.foldl_concat]
    exact (perform_fallback _ step).trans ih

omit [IInputReceiver ι ω] in
/-- What waits in a started core has a closure that will offer it. -/
theorem nothing_pending {source : InputSource ι (Observed ι ω)} (hscheduled : Scheduled source)
    (horderly : source.Orderly)
    (hstarted : source.session.core.started)
    (hnone : ∀ monitor, source.monitor = some monitor → source.outstanding monitor = 0) :
    source.session.core.pending = [] := by
  by_contra hpending
  have hwaits := (AppleDeliveryCore.hasPending_iff _).mpr ⟨hstarted, hpending⟩
  obtain ⟨monitor, hm⟩ := Option.isSome_iff_exists.mp (horderly.consistent.monitor.mp hstarted)
  have hretry := hscheduled.pending monitor hm hwaits
  have hcount := (hscheduled.closures monitor hm).2
  rw [hnone monitor hm, if_pos hretry] at hcount
  exact absurd hcount (by decide)

/-- Behind a Start that succeeds, a session is conducted. -/
theorem session_conducted {memory : Fake.Memory} {descriptor : InputSourceDescriptor} {world : ω}
    {source : InputSource ι (Observed ι ω)}
    (h : create memory descriptor { world := world } = .ok source)
    (before : List (SourceStep ι))
    (hstarted : ((run source before).start receiver appKit).1 = .ok ())
    (steps : List (SourceStep ι)) (hsteps : ∀ step ∈ steps, InSession step)
    (hfew : 2 * (before ++ .start receiver appKit :: steps).length < 2 ^ 64) :
    let first := run source (before ++ [.start receiver appKit])
    ∃ trace ops events, Reached descriptor.maximumQueuedBatches.toNat
        (before ++ [.start receiver appKit]) trace first ∧
      Reached descriptor.maximumQueuedBatches.toNat (before ++ [.start receiver appKit] ++ steps)
        (trace ++ events) (run first steps) ∧
      Conducted receiver descriptor.acceptPointerFallback first steps ops events
        (run first steps) ∧
      first.session.core = (run source before).session.core.start := by
  intro first
  obtain ⟨hpos, hcreated⟩ := reached_of_create h
  have hlength : 2 * (before ++ [SourceStep.start receiver appKit] ++ steps).length < 2 ^ 64 := by
    simpa using hfew
  obtain ⟨trace, hreached⟩ := run_reached hpos hcreated
    (before ++ [SourceStep.start receiver appKit])
    (by rw [List.length_append] at hlength; omega)
  have hfirst : first = ((run source before).start receiver appKit).2.note
      (.started receiver ((run source before).start receiver appKit).1) := List.foldl_concat ..
  obtain ⟨hreceiver, hcore, hlistens⟩ := start_succeeds hstarted
  rw [run_fallback h before] at hlistens
  have hopened : sessionOf first.trace = some receiver := by
    rw [show sessionOf first.trace = first.receiver from hreached.orderly.inSession.session, hfirst]
    exact hreceiver
  have hlistening : Listens descriptor.acceptPointerFallback false first := by
    rw [hfirst]
    exact hlistens
  obtain ⟨ops, events, hbehind, hconducted⟩ := Conducted.run hpos
    ⟨hopened, .nil, by simp, (List.append_nil _).symm, hlistening, fun _ _ => rfl⟩ hreached steps
    hsteps hlength
  refine ⟨trace, ops, events, hreached, hbehind, hconducted, ?_⟩
  rw [hfirst]
  exact hcore

/-- For every session of a source, whatever its past and however the receiver is busy, as long as
it rejects nothing and no overflow is reported: what was accepted and what still waits are the
captured events, translated, in order and each once, and nothing waits without a closure. -/
theorem delivers_captured {memory : Fake.Memory} {descriptor : InputSourceDescriptor} {world : ω}
    {source : InputSource ι (Observed ι ω)}
    (h : create memory descriptor { world := world } = .ok source)
    (before : List (SourceStep ι)) (receiver : ι) (appKit : AppKit)
    (hstarted : ((run source before).start receiver appKit).1 = .ok ())
    (steps : List (SourceStep ι)) (hsteps : ∀ step ∈ steps, InSession step)
    (hfew : 2 * (before ++ .start receiver appKit :: steps).length < 2 ^ 64) :
    let first := run source (before ++ [.start receiver appKit])
    let last := run first steps
    let seen := last.trace.drop first.trace.length
    (∀ event ∈ seen, event.abandons = false) →
      acceptedBatches seen ++ last.session.core.pending.map toBatch =
          ((first.session.core.cursor.translateAll
            (contactEvents descriptor.acceptPointerFallback false steps)).2).map toBatch ∧
        ((∀ monitor, last.monitor = some monitor → last.outstanding monitor = 0) →
          last.session.core.pending = []) := by
  intro first last seen hkept
  obtain ⟨trace, ops, events, hreached, hbehind, hconducted, hcore⟩ :=
    session_conducted h before hstarted steps hsteps hfew
  have hseen : seen = events.filterMap (visible (some receiver)) := by
    simp only [seen, last]
    rw [hconducted.shown, List.drop_left]
  rw [hseen] at hkept
  have hclean := nothingAbandoned_of_visible receiver events hkept
  have hlabel : ∀ q op events q', QueueModel.Calls q op events q' →
      events.filterMap CoreEvent.call? = [op] := fun _ _ _ _ hc => hc.callsOf_eq
  have hbegun : QueueModel.Translated first.session.core.cursor [] first.session.core.model := by
    have hmodel : first.session.core = (run source before).session.core.start := hcore
    rw [hmodel]
    exact ⟨rfl, rfl, rfl⟩
  have hrunning : Always (fun earlier => Underway ([] ++ earlier)) ops := by
    intro earlier op later hsplit
    apply hconducted.running op
    rw [hsplit]
    simp
  have htranslated := hconducted.serves.preserves
    (QueueModel.translated_calls first.session.core.cursor).preserves hlabel
    (fun _ _ _ (hop : Underway _ _) => hop) hrunning (fun _ => hbegun) hclean
  rw [List.nil_append] at htranslated
  have hevents : eventsIn events = submittedBy ops := by
    rw [eventsIn, callsOf, hconducted.serves.calls_eq hlabel]
  refine ⟨?_, fun hnone => ?_⟩
  · have hdeliveries := congrArg (List.map toBatch) htranslated.deliveries
    rw [hevents, hconducted.meaning hclean, List.map_map] at hdeliveries
    rw [hseen, acceptedBatches_visible, ← List.map_append, ← hdeliveries]
    rfl
  · have hlast : last = run source (before ++ [.start receiver appKit] ++ steps) :=
      List.foldl_append.symm
    have hscheduled : Scheduled last := by
      rw [hlast]
      exact run_scheduled (scheduled_of_create h) _
    have hbound := (hconducted.receiver_eq hbehind.orderly).2 hclean
    refine nothing_pending hscheduled hbehind.orderly ?_ hnone
    rw [← hbehind.orderly.consistent.receiver, hbound]
    rfl

/-- The second drag waits behind a closure. -/
def waitingDrag : List (SourceStep Unit) :=
  [.capture { type := .leftMouseDown }, .capture { type := .leftMouseDragged }, .fire 0]

theorem delivers_captured_waiting :
    let first := run oneSlot ([] ++ [.start () {}])
    let last := run first waitingDrag
    let seen := last.trace.drop first.trace.length
    acceptedBatches seen ++ last.session.core.pending.map toBatch =
        ((first.session.core.cursor.translateAll (contactEvents true false waitingDrag)).2).map
          toBatch ∧
      ((∀ monitor, last.monitor = some monitor → last.outstanding monitor = 0) →
        last.session.core.pending = []) := by
  have hsteps : ∀ step ∈ waitingDrag, InSession step := by
    intro step hstep
    simp only [waitingDrag, List.mem_cons, List.not_mem_nil, or_false] at hstep
    rcases hstep with rfl | rfl | rfl <;> exact ⟨by simp, by simp⟩
  exact delivers_captured oneSlot_created [] () {} rfl waitingDrag hsteps (by decide) (by decide)

end Session
end InputSource
end LightPhi.MacOS
