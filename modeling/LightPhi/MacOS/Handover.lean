import LightPhi.MacOS.Receivers
import LightPhi.MacOS.Retries

/-! From the captured AppKit events to the receiver: what the source hands over obeys the public
delivery rules. -/
namespace LightPhi.MacOS
open Base Input Apple
open Fake (IInputReceiver)
variable {ι ω : Type*}

/-- What follows a call while a session runs: offers and failures. -/
def CoreEvent.reaches : CoreEvent → Bool
  | .receive _ _ _ | .failed _ => true
  | .called _ | .stopped => false

theorem drains_reach {q q' : QueueModel} {events : List CoreEvent}
    (h : QueueModel.Drains q events q') : ∀ event ∈ events, CoreEvent.reaches event := by
  induction h with
  | done => simp
  | accepted _ _ _ ih => exact List.forall_mem_cons.mpr ⟨rfl, ih⟩
  | busy => simp [CoreEvent.reaches]
  | rejected => simp [CoreEvent.reaches]

/-- A call of a running session, and what it leads to. -/
theorem calls_running {q q' : QueueModel} {op : CoreOp} {events : List CoreEvent}
    (h : QueueModel.Calls q op events q') (hop : op ≠ .start ∧ op ≠ .stop) :
    ∃ rest, events = .called op :: rest ∧ (∀ event ∈ rest, CoreEvent.reaches event) ∧
      (q.started = false → rest = [] ∧ q'.started = false) := by
  cases h with
  | start => exact absurd rfl hop.1
  | cancelled | closed => exact absurd rfl hop.2
  | ignored hs => exact ⟨[], rfl, by simp, fun _ => ⟨rfl, hs⟩⟩
  | device hs | stray hs => exact ⟨[], rfl, by simp, by simp [hs]⟩
  | queued hs _ _ _ _ _ hdrains => exact ⟨_, rfl, drains_reach hdrains, by simp [hs]⟩
  | overflow hs => exact ⟨_, rfl, by simp [CoreEvent.reaches], by simp [hs]⟩
  | retried hdrains =>
    refine ⟨_, rfl, drains_reach hdrains, fun hstopped => ?_⟩
    cases hdrains with
    | done _ => exact ⟨rfl, hstopped⟩
    | accepted hs | busy hs | rejected hs => simp [hstopped] at hs

section Serves
variable {q q' : QueueModel} {ops : List CoreOp} {events : List CoreEvent}
  (h : Serves QueueModel.Calls q ops events q') (hops : ∀ op ∈ ops, op ≠ .start ∧ op ≠ .stop)
include h hops

/-- Calls to a core that is not started lead to nothing. -/
theorem called_of_stopped (hq : q.started = false) : events = ops.map .called := by
  induction h with
  | nil => rfl
  | @cons q op events q' ops more q'' hc _ ih =>
    obtain ⟨hop, hlater⟩ := List.forall_mem_cons.mp hops
    obtain ⟨rest, rfl, -, hstopped⟩ := calls_running hc hop
    obtain ⟨rfl, hnext⟩ := hstopped hq
    rw [ih hlater hnext]
    rfl

theorem served_running :
    ∀ event ∈ events, event ≠ .called .start ∧ event ≠ .called .stop ∧ event ≠ .stopped := by
  induction h with
  | nil => simp
  | @cons q op events q' ops more q'' hc _ ih =>
    obtain ⟨hop, hlater⟩ := List.forall_mem_cons.mp hops
    obtain ⟨rest, rfl, hrest, -⟩ := calls_running hc hop
    refine List.forall_mem_append.mpr ⟨List.forall_mem_cons.mpr ⟨?_, fun event he => ?_⟩,
      ih hlater⟩
    · simpa using hop
    · have hreaches := hrest event he
      refine ⟨?_, ?_, ?_⟩ <;> rintro rfl <;> simp [CoreEvent.reaches] at hreaches

/-- The first of the events is a call. -/
theorem served_head {event : CoreEvent} (hhead : events.head? = some event) :
    ∃ op, event = .called op := by
  cases h with
  | nil => simp at hhead
  | @cons _ op events _ _ more _ hc _ =>
    obtain ⟨hop, -⟩ := List.forall_mem_cons.mp hops
    obtain ⟨rest, rfl, -⟩ := calls_running hc hop
    exact ⟨op, (Option.some.inj hhead).symm⟩

end Serves

theorem visible_called (receiver : Option ι) (ops : List CoreOp) :
    (ops.map CoreEvent.called).filterMap (visible receiver) = [] := by
  have hcalled (op : CoreOp) : visible receiver (.called op) = none := by
    cases receiver <;> rfl
  simp [hcalled]

namespace InputSource
open InputSourceImplementation
variable [IInputReceiver ι ω] {bound : Nat} {trace : List CoreEvent}
  {s s' : InputSource ι (Observed ι ω)}

/-- A call from the monitor leaves the binding as it is, or ends the session. -/
theorem Orderly.performCore (h : s.Orderly) {op : CoreOp} (hop : op ≠ .start ∧ op ≠ .stop) :
    (s.performCore op).Orderly ∧ ((s.performCore op).receiver = s.receiver ∨
      (s.performCore op).session.core.started = false) := by
  cases op with
  | start => exact absurd rfl hop.1
  | stop => exact absurd rfl hop.2
  | submit event =>
    refine ⟨h.submit event, ?_⟩
    have hleaves := Session.submitEvent_leaves event s.session
    have hsession : (s.performCore (.submit event)).session = s.session.submitEvent event := rfl
    rw [InputSource.receiver, hsession]
    generalize s.session.submitEvent event = session at hleaves ⊢
    cases hleaves with
    | offers _ hoffers _ => exact Or.inl (offers_frame hoffers).1
    | failed core => exact Or.inr rfl
  | retryPending =>
    exact ⟨h.retryPending, Or.inl (offers_frame (Session.drain_offers s.session).1).1⟩

/-- The calls a step makes are calls of the queue model, and the receiver sees their events. -/
theorem Performs.tracks (hpos : 0 < bound) {ops : List CoreOp} (h : Performs s ops s')
    (hops : ∀ op ∈ ops, op ≠ .start ∧ op ≠ .stop) (horderly : s.Orderly)
    (htracks : Tracks bound trace s)
    (hfew : (eventsIn trace).length + (submittedBy ops).length < 2 ^ 64) :
    ∃ events, Serves QueueModel.Calls s.session.core.model ops events s'.session.core.model ∧
      Tracks bound (trace ++ events) s' ∧
      s'.trace = s.trace ++ events.filterMap (visible s.receiver) ∧ s'.Orderly := by
  induction h generalizing trace with
  | done s =>
    refine ⟨[], .nil, ?_, (List.append_nil _).symm, horderly⟩
    rwa [List.append_nil]
  | monitor f _ ih =>
    have hsame : Tracks bound trace (InputSource.updateMonitor f _) :=
      ⟨htracks.reaches, htracks.wellFormed, htracks.holds.length, htracks.holds.cells⟩
    exact ih hops (horderly.updateMonitor f) hsame hfew
  | queue mainQueue _ ih =>
    exact ih hops (horderly.onMainQueue mainQueue) ⟨htracks.reaches, htracks.wellFormed,
      htracks.holds⟩ hfew
  | @call s ops s' op _ ih =>
    obtain ⟨hop, hlater⟩ := List.forall_mem_cons.mp hops
    have hunbound : s.receiver = none → s.session.core.started = false := by
      intro hnone
      have hiff := horderly.consistent.receiver
      rw [hnone] at hiff
      simpa using hiff
    have hallowed : QueueModel.FewEvents trace s.session.core.model op := by
      cases op with
      | submit event =>
        have hlength : (submittedBy (.submit event :: ops)).length =
            (submittedBy ops).length + 1 := rfl
        rw [QueueModel.FewEvents]
        omega
      | start | retryPending | stop => trivial
    obtain ⟨events, hcall, hnext, hshown⟩ := htracks.call hpos hunbound hop.1 hallowed
    obtain ⟨horderly', hbound⟩ := horderly.performCore hop
    have hcount : (eventsIn (trace ++ events)).length + (submittedBy ops).length < 2 ^ 64 := by
      have hsplit : (submittedBy (op :: ops)).length =
          (submittedBy [op]).length + (submittedBy ops).length := by
        rw [submittedBy, ← List.singleton_append, List.filterMap_append, List.length_append]
        rfl
      rw [eventsIn_append, List.length_append, eventsIn, eventsIn, hcall.callsOf_eq]
      rw [eventsIn] at hfew
      omega
    obtain ⟨more, hserves, hlast, hmore, horderly''⟩ := ih hlater horderly' hnext hcount
    refine ⟨events ++ more, .cons hcall hserves, ?_, ?_, horderly''⟩
    · rwa [← List.append_assoc]
    · rw [hmore, hshown, List.filterMap_append, List.append_assoc]
      cases hbound with
      | inl hsame => rw [hsame]
      | inr hstopped =>
        rw [called_of_stopped hserves hlater hstopped, visible_called, visible_called]

end InputSource

/-- The state of the receiver that is bound: it moves on with what it accepts, and forgets the
contact when it rejects, when the source fails, at Stop, and at a Start that is not refused as
repeated. -/
def observeReceiver (state : DeliveryState) : SourceEvent ι → DeliveryState
  | .receive _ batch .Accepted =>
    match validateBatch batch publicCapabilities state with
    | .ok next => next
    | .error _ => state
  | .receive _ _ .Busy | .started _ (.error .AlreadyStarted) => state
  | .receive _ _ .Rejected | .sourceFailed _ _ | .stopped | .started _ _ => {}

def observed (trace : List (SourceEvent ι)) : DeliveryState := trace.foldl observeReceiver {}

theorem observed_append (trace more : List (SourceEvent ι)) :
    observed (trace ++ more) = more.foldl observeReceiver (observed trace) := List.foldl_append

theorem observer_append (trace events : List CoreEvent) :
    observer (trace ++ events) = events.foldl observe (observer trace) := List.foldl_append

/-- What is handed over passes the batch check from the state of the receiver. -/
def HandsOverValid (before : List (SourceEvent ι)) : SourceEvent ι → Prop
  | .receive _ batch _ => (validateBatch batch publicCapabilities (observed before)).isOk
  | _ => True

/-- The numbers of an AppKit event are finite as far as it carries them. -/
structure NSEvent.Finite (event : NSEvent) : Prop where
  x : event.x.isFinite
  y : event.y.isFinite
  pen : event.tabletPoint → event.pressure.isFinite ∧ event.tiltXRadians.isFinite ∧
    event.tiltYRadians.isFinite ∧ event.twistRadians.isFinite

/-- The mouse and pen events of some steps. -/
def mouseEvents (steps : List (SourceStep ι)) : List NSEvent :=
  steps.filterMap fun
    | .capture event => if (capturedKind event.type).isSome then some event else none
    | _ => none

/-- What AppKit promises of its events: finite numbers, in the order of time. -/
structure FromAppKit (steps : List (SourceStep ι)) : Prop where
  finite : ∀ event ∈ mouseEvents steps, event.Finite
  inTime : (mouseEvents steps).Pairwise fun a b => a.timeNanoseconds ≤ b.timeNanoseconds

section Agreement
variable (receiver : ι) {events : List CoreEvent}

/-- The core's observer and the receiver move alike while no session begins or ends. -/
theorem observeReceiver_visible (state : DeliveryState) {event : CoreEvent}
    (hevent : event ≠ .called .start ∧ event ≠ .stopped) :
    ((visible (some receiver) event).toList).foldl observeReceiver state = observe state event := by
  cases event with
  | called op =>
    cases op with
    | start => exact absurd rfl hevent.1
    | submit event | retryPending | stop => rfl
  | stopped => exact absurd rfl hevent.2
  | receive mask d decision => cases decision <;> rfl
  | failed failure => rfl

theorem foldl_visible (state : DeliveryState)
    (hevents : ∀ event ∈ events, event ≠ .called .start ∧ event ≠ .stopped) :
    (events.filterMap (visible (some receiver))).foldl observeReceiver state =
      events.foldl observe state := by
  induction events generalizing state with
  | nil => rfl
  | cons event events ih =>
    obtain ⟨hevent, hlater⟩ := List.forall_mem_cons.mp hevents
    have hone := observeReceiver_visible receiver state hevent
    rw [List.foldl_cons, ← hone, ← ih _ hlater, ← List.foldl_append]
    congr 1
    cases hvisible : visible (some receiver) event with
    | none => rw [List.filterMap_cons_none hvisible]; rfl
    | some shown => rw [List.filterMap_cons_some hvisible]; rfl

theorem observe_called (state : DeliveryState) {ops : List CoreOp}
    (hops : ∀ op ∈ ops, op ≠ .start ∧ op ≠ .stop) :
    (ops.map CoreEvent.called).foldl observe state = state := by
  induction ops with
  | nil => rfl
  | cons op ops ih =>
    obtain ⟨hop, hlater⟩ := List.forall_mem_cons.mp hops
    have hone : observe state (.called op) = state := by
      cases op with
      | start => exact absurd rfl hop.1
      | submit event | retryPending | stop => rfl
    rw [List.map_cons, List.foldl_cons, hone]
    exact ih hlater

end Agreement

section Submissions
variable {monitor : MacOSInputMonitor} {event : NSEvent} {captured : CapturedEvent}

theorem capturedEvent_point {eraser : Bool} (h : capturedEvent event eraser = some captured) :
    (capturedKind event.type).isSome ∧ captured.timeNanoseconds = event.timeNanoseconds ∧
      (event.Finite → FinitePoint captured) := by
  have hzero : Binary64.zero.isFinite := by decide
  obtain ⟨kind, hkind, rfl⟩ := Option.map_eq_some_iff.mp h
  refine ⟨by rw [hkind]; rfl, ?_, fun hfinite => ?_⟩
  · simp only
    split_ifs <;> rfl
  · simp only
    split_ifs with htablet
    · exact ⟨hfinite.x, hfinite.y, hzero, hzero, hzero, hzero⟩
    · obtain ⟨hpressure, htiltX, htiltY, htwist⟩ := hfinite.pen (by simpa using htablet)
      exact ⟨hfinite.x, hfinite.y, hpressure, htiltX, htiltY, htwist⟩

/-- A point that a monitor submits is the mouse event it captured. -/
theorem submissions_point (h : captured ∈ monitor.submissions event)
    (hpoint : carriesPoint captured) :
    (capturedKind event.type).isSome ∧ captured.timeNanoseconds = event.timeNanoseconds ∧
      (event.Finite → FinitePoint captured) := by
  have hdevice {capabilities : UInt16} {captured : CapturedEvent}
      (h : captured ∈ [({ kind := .DeviceObserved, capabilities := capabilities } :
        CapturedEvent)]) : carriesPoint captured = false := by
    rw [List.mem_singleton.mp h]
    rfl
  rw [MacOSInputMonitor.submissions] at h
  split_ifs at h with hproximity hcancelled hpointer
  · rw [hdevice h] at hpoint
    exact absurd hpoint (by decide)
  · rw [List.mem_singleton.mp h] at hpoint
    exact absurd hpoint (by decide)
  · simp at h
  · cases List.mem_append.mp h with
    | inl hreport =>
      rw [MacOSInputMonitor.pointerReport] at hreport
      split_ifs at hreport
      · rw [hdevice hreport] at hpoint
        exact absurd hpoint (by decide)
      · simp at hreport
    | inr hcaptured => exact capturedEvent_point (Option.mem_toList.mp hcaptured)

theorem submissions_length : (monitor.submissions event).length ≤ 2 := by
  have hreport : (monitor.pointerReport event).length ≤ 1 := by
    rw [MacOSInputMonitor.pointerReport]
    split_ifs <;> simp
  have hcaptured : (capturedEvent event monitor.eraser).toList.length ≤ 1 := by
    cases capturedEvent event monitor.eraser <;> simp
  rw [MacOSInputMonitor.submissions]
  split_ifs
  · simp
  · simp
  · simp
  · rw [List.length_append]
    omega

end Submissions

namespace InputSource
section Steps
variable (s : InputSource ι ω) (step : SourceStep ι)

/-- The calls of a step: none, those for an event that was captured, a cancellation, or a retry. -/
theorem coreOpsOf_cases : s.coreOpsOf step = [] ∨
    (∃ monitor event, step = .capture event ∧
      s.coreOpsOf step = (MacOSInputMonitor.submissions monitor event).map .submit) ∨
    s.coreOpsOf step = [.submit { kind := .Cancel }] ∨ s.coreOpsOf step = [.retryPending] := by
  cases step with
  | capture event =>
    rw [coreOpsOf]
    split
    · split_ifs
      · exact Or.inr (Or.inl ⟨_, event, rfl, rfl⟩)
      · exact Or.inl rfl
    · exact Or.inl rfl
  | resignActive =>
    rw [coreOpsOf]
    split
    · split_ifs
      · exact Or.inr (Or.inr (Or.inl rfl))
      · exact Or.inl rfl
    · exact Or.inl rfl
  | fire index =>
    rw [coreOpsOf]
    split
    · split_ifs
      · exact Or.inr (Or.inr (Or.inr rfl))
      · exact Or.inl rfl
    · exact Or.inl rfl
  | start _ _ | stop => exact Or.inl rfl

/-- No step of the main thread starts or stops the core. -/
theorem coreOpsOf_running : ∀ op ∈ s.coreOpsOf step, op ≠ .start ∧ op ≠ .stop := by
  intro op hop
  obtain hnil | ⟨monitor, event, -, hcapture⟩ | hcancel | hretry :=
    coreOpsOf_cases s step
  · simp [hnil] at hop
  · rw [hcapture] at hop
    obtain ⟨captured, -, rfl⟩ := List.mem_map.mp hop
    simp
  · rw [hcancel] at hop
    simp [List.mem_singleton.mp hop]
  · rw [hretry] at hop
    simp [List.mem_singleton.mp hop]

/-- What a step submits: at most two events, and a point only for a mouse event. -/
theorem submitted_coreOpsOf :
    (submittedBy (s.coreOpsOf step)).length ≤ 2 ∧
      ∀ captured ∈ submittedBy (s.coreOpsOf step), carriesPoint captured →
        ∃ event, step = .capture event ∧ (capturedKind event.type).isSome ∧
          captured.timeNanoseconds = event.timeNanoseconds ∧
            (event.Finite → FinitePoint captured) := by
  obtain hnil | ⟨monitor, event, rfl, hcapture⟩ | hcancel | hretry :=
    coreOpsOf_cases s step
  · simp [hnil, submittedBy]
  · have hmap : submittedBy ((monitor.submissions event).map .submit) =
        monitor.submissions event := by
      simp [submittedBy, Function.comp_def, CoreOp.submitted?]
    rw [hcapture, hmap]
    exact ⟨submissions_length, fun captured h hpoint => ⟨event, rfl, submissions_point h hpoint⟩⟩
  · simp [hcancel, submittedBy, CoreOp.submitted?, carriesPoint]
  · have hnone : submittedBy [CoreOp.retryPending] = [] := rfl
    simp [hretry, hnone]

end Steps

/-- A source behind some steps: its core has had the given conversation, of which the receiver has
seen what it should, and everything that waits there will pass. -/
structure Reached (bound : Nat) (steps : List (SourceStep ι)) (trace : List CoreEvent)
    (s : InputSource ι (Observed ι ω)) : Prop where
  orderly : s.Orderly
  tracks : Tracks bound trace s
  few : (eventsIn trace).length ≤ 2 * steps.length
  points : ∀ captured ∈ eventsIn trace, carriesPoint captured →
    ∃ event ∈ mouseEvents steps, captured.timeNanoseconds = event.timeNanoseconds
  observed : observed s.trace = observer trace
  handed : handedOver s.trace = offerings trace
  valid : FromAppKit steps → Valid trace s.session.core.model

/-- What is asked of the next call, given the calls before it. -/
def CallsInTime (past : List CoreOp) (op : CoreOp) : Prop :=
  (∀ event, op = .submit event → (submittedBy past).length + 1 < 2 ^ 64) ∧
    ∀ event, op = .submit event →
      (carriesPoint event → FinitePoint event) ∧ InTime (submittedBy past) event

theorem wellTimed_of_callsInTime {trace : List CoreEvent} {q : QueueModel} {op : CoreOp}
    (h : CallsInTime (callsOf trace) op) : WellTimed trace q op := by
  refine ⟨?_, h.2⟩
  cases op with
  | submit event => exact h.1 event rfl
  | start | retryPending | stop => trivial

/-- Calls in time keep everything that waits valid. -/
theorem valid_preserves : Preserves QueueModel.Calls WellTimed fun trace q =>
    Counted (eventsIn trace).length q.cursor ∧ Valid trace q := by
  have hcounted := QueueModel.counted_calls.weaken fun trace q op (h : WellTimed trace q op) => h.1
  intro trace q op events q' hallowed hcall hinv
  exact ⟨hcounted.preserves trace q op events q' hallowed hcall hinv.1,
    valid_calls.preserves trace q op events q' ⟨hallowed, hinv.1⟩ hcall hinv.2⟩

variable [IInputReceiver ι ω] {bound : Nat} {steps : List (SourceStep ι)} {trace : List CoreEvent}
  {s : InputSource ι (Observed ι ω)} {step : SourceStep ι}

omit [IInputReceiver ι ω] in
theorem Reached.counted (h : Reached bound steps trace s) :
    Counted (eventsIn trace).length s.session.core.model.cursor :=
  h.tracks.reaches.invariant QueueModel.counted_calls.preserves
    ⟨Nat.zero_le _, Nat.zero_le _, Nat.zero_le _, Nat.zero_le _, by simp, le_rfl⟩

theorem mouseEvents_concat (steps : List (SourceStep ι)) (step : SourceStep ι) :
    mouseEvents (steps ++ [step]) = mouseEvents steps ++ mouseEvents [step] :=
  List.filterMap_append ..

omit [IInputReceiver ι ω] in
theorem fromAppKit_of_concat (h : FromAppKit (steps ++ [step])) : FromAppKit steps := by
  have hmouse := mouseEvents_concat steps step
  refine ⟨fun event hevent => h.finite event ?_, ?_⟩
  · rw [hmouse]
    exact List.mem_append_left _ hevent
  · have hordered := h.inTime
    rw [hmouse] at hordered
    exact (List.pairwise_append.mp hordered).1

omit [IInputReceiver ι ω] in
theorem callsInTime_step (h : Reached bound steps trace s)
    (hfew : 2 * (steps ++ [step]).length < 2 ^ 64) (happKit : FromAppKit (steps ++ [step])) :
    Always (fun before => CallsInTime (callsOf trace ++ before)) (s.coreOpsOf step) := by
  intro before op after heq
  obtain ⟨hcount, hpoints⟩ := submitted_coreOpsOf s step
  have hsplit : submittedBy (s.coreOpsOf step) =
      submittedBy before ++ (submittedBy [op] ++ submittedBy after) := by
    rw [heq, submittedBy, submittedBy, submittedBy, submittedBy, ← List.filterMap_append,
      ← List.filterMap_append]
    rfl
  have hpast : submittedBy (callsOf trace ++ before) = eventsIn trace ++ submittedBy before :=
    List.filterMap_append
  refine ⟨?_, ?_⟩
  all_goals
    intro event hop
    subst hop
    have hone : submittedBy [CoreOp.submit event] = [event] := rfl
    rw [hone] at hsplit
  · have hlength := congrArg List.length hsplit
    have hpastLength := congrArg List.length hpast
    simp only [List.length_append, List.length_singleton] at hlength hpastLength hfew
    have hfewer := h.few
    omega
  · have hmem : event ∈ submittedBy (s.coreOpsOf step) := by
      rw [hsplit]
      simp
    refine ⟨fun hpoint => ?_, fun hpoint _ last hlast => ?_⟩
    · obtain ⟨source, rfl, hmouse, -, hfinite⟩ := hpoints event hmem hpoint
      exact hfinite (happKit.finite source (by simp [mouseEvents, hmouse]))
    · obtain ⟨source, rfl, hmouse, htime, -⟩ := hpoints event hmem hpoint
      have hsource : mouseEvents [SourceStep.capture (ι := ι) source] = [source] := by
        simp [mouseEvents, hmouse]
      have hordered := happKit.inTime
      rw [mouseEvents_concat, hsource, List.pairwise_append] at hordered
      obtain ⟨hlastMem, hlastPoint⟩ := List.mem_filter.mp (List.mem_of_mem_getLast? hlast)
      rw [hpast] at hlastMem
      rw [htime]
      cases List.mem_append.mp hlastMem with
      | inl hearlier =>
        obtain ⟨other, hother, hsame⟩ := h.points last hearlier hlastPoint
        rw [hsame]
        exact hordered.2.2 other hother source (List.mem_singleton_self _)
      | inr hstep =>
        obtain ⟨other, hother, -, hsame, -⟩ := hpoints last (by rw [hsplit]; simp [hstep])
          hlastPoint
        obtain rfl := SourceStep.capture.inj hother
        rw [hsame]

/-- One step that neither starts nor stops the source. -/
theorem Reached.serve (hpos : 0 < bound) (h : Reached bound steps trace s)
    (hstart : ∀ receiver appKit, step ≠ .start receiver appKit) (hstop : step ≠ .stop)
    (hfew : 2 * (steps ++ [step]).length < 2 ^ 64) :
    ∃ events, Serves QueueModel.Calls s.session.core.model (s.coreOpsOf step) events
        (s.perform step).session.core.model ∧
      (s.perform step).trace = s.trace ++ events.filterMap (visible s.receiver) ∧
      Reached bound (steps ++ [step]) (trace ++ events) (s.perform step) := by
  have hops := coreOpsOf_running s step
  obtain ⟨hcount, hpoints⟩ := submitted_coreOpsOf s step
  obtain ⟨events, hserves, htracks, hshown, horderly⟩ :=
    (perform_performs s hstart hstop).tracks hpos hops h.orderly h.tracks (by
      have hfewer := h.few
      rw [List.length_append, List.length_singleton] at hfew
      omega)
  have hcalls : eventsIn events = submittedBy (s.coreOpsOf step) := by
    rw [eventsIn, callsOf, hserves.calls_eq fun _ _ _ _ hc => hc.callsOf_eq]
  have hlabel : ∀ q op events q', QueueModel.Calls q op events q' →
      events.filterMap CoreEvent.call? = [op] := fun _ _ _ _ hc => hc.callsOf_eq
  have hvalid (happKit : FromAppKit (steps ++ [step])) :=
    hserves.preserves valid_preserves hlabel (fun _ _ _ => wellTimed_of_callsInTime)
      (callsInTime_step h hfew happKit) ⟨h.counted, h.valid (fromAppKit_of_concat happKit)⟩
  have hrunning := served_running hserves hops
  have hnone (hreceiver : s.receiver = none) : events = (s.coreOpsOf step).map .called := by
    have hiff := h.orderly.consistent.receiver
    rw [hreceiver] at hiff
    have hstopped : s.session.core.started = false := by simpa using hiff
    exact called_of_stopped hserves hops hstopped
  refine ⟨events, hserves, hshown, horderly, htracks, ?_, ?_, ?_, ?_,
    fun happKit => (hvalid happKit).2⟩
  · have hfewer := h.few
    rw [eventsIn_append, hcalls, List.length_append, List.length_append, List.length_singleton]
    omega
  · intro captured hmem hpoint
    rw [mouseEvents_concat]
    rw [eventsIn_append, hcalls] at hmem
    cases List.mem_append.mp hmem with
    | inl hearlier =>
      obtain ⟨event, hevent, htime⟩ := h.points captured hearlier hpoint
      exact ⟨event, List.mem_append_left _ hevent, htime⟩
    | inr hstep =>
      obtain ⟨event, rfl, hmouse, htime, -⟩ := hpoints captured hstep hpoint
      exact ⟨event, by simp [mouseEvents, hmouse], htime⟩
  · rw [hshown, observed_append, h.observed, observer_append]
    cases hreceiver : s.receiver with
    | some receiver =>
      exact foldl_visible receiver _ fun event he =>
        ⟨(hrunning event he).1, (hrunning event he).2.2⟩
    | none =>
      rw [hnone hreceiver, visible_called]
      exact (observe_called _ hops).symm
  · rw [hshown, handedOver_append, h.handed, offerings_append]
    cases hreceiver : s.receiver with
    | some receiver => rw [handedOver_visible]
    | none => rw [hnone hreceiver, visible_called, offerings_called, handedOver, List.filterMap_nil]

omit [IInputReceiver ι ω] in
/-- A call that submits nothing keeps everything that waits valid. -/
theorem Reached.valid_call (h : Reached bound steps trace s) {op : CoreOp}
    (hop : ∀ event, op ≠ .submit event) {events : List CoreEvent} {q : QueueModel}
    (hcall : QueueModel.Calls s.session.core.model op events q) (happKit : FromAppKit steps) :
    Counted (eventsIn (trace ++ events)).length q.cursor ∧ Valid (trace ++ events) q := by
  refine valid_preserves trace _ op events q ⟨?_, fun event he => absurd he (hop event)⟩ hcall
    ⟨h.counted, h.valid happKit⟩
  cases op with
  | submit event => exact absurd rfl (hop event)
  | start | retryPending | stop => trivial

omit [IInputReceiver ι ω] in
/-- What is asked of the events and their number does not change without an event. -/
theorem Reached.quiet (h : Reached bound steps trace s) (step : SourceStep ι)
    (events : List CoreEvent) (hevents : eventsIn events = []) :
    (eventsIn (trace ++ events)).length ≤ 2 * (steps ++ [step]).length ∧
      ∀ captured ∈ eventsIn (trace ++ events), carriesPoint captured →
        ∃ event ∈ mouseEvents (steps ++ [step]),
          captured.timeNanoseconds = event.timeNanoseconds := by
  rw [eventsIn_append, hevents, List.append_nil]
  have hfew := h.few
  refine ⟨by rw [List.length_append]; omega, fun captured hmem hpoint => ?_⟩
  obtain ⟨event, hevent, htime⟩ := h.points captured hmem hpoint
  rw [mouseEvents_concat]
  exact ⟨event, List.mem_append_left _ hevent, htime⟩

theorem Reached.start (h : Reached bound steps trace s) (receiver : ι) (appKit : AppKit) :
    ∃ events, Reached bound (steps ++ [.start receiver appKit]) (trace ++ events)
      (s.perform (.start receiver appKit)) := by
  have horderly := h.orderly.start receiver appKit
  have hcases := start_cases receiver appKit s
  rw [perform]
  generalize s.start receiver appKit = outcome at hcases horderly ⊢
  have hcall : QueueModel.Calls s.session.core.model .start [.called .start]
      s.session.core.start.model := .start _
  have hwf : s.session.core.start.WellFormed := h.tracks.wellFormed.emptied
  have hholds (events : List CoreEvent) (hoffers : offersOf events = []) :
      s.session.target.Holds bound (offersOf (trace ++ events)) := by
    rw [offersOf_append, hoffers, List.append_nil]
    exact h.tracks.holds
  have hallowed : QueueModel.FewEvents trace s.session.core.model .start := trivial
  have hreaches : QueueModel.Reaches QueueModel.FewEvents { capacity := bound }
      (trace ++ [.called .start]) s.session.core.start.model :=
    .call h.tracks.reaches hallowed hcall
  have hvalid := h.valid_call (by simp) hcall
  have hhanded (result : Except InputSourceError Unit) {events : List CoreEvent}
      (hevents : offerings events = []) :
      handedOver (s.trace ++ [.started receiver result]) = offerings (trace ++ events) := by
    rw [offerings_append, hevents, handedOver_append, h.handed]
    rfl
  cases hcases with
  | bound hbound =>
    have hsame : MacOS.observed (s.note (.started receiver (.error .AlreadyStarted))).trace =
        MacOS.observed s.trace := observed_append _ _
    obtain ⟨hfew, hpoints⟩ := h.quiet (.start receiver appKit) [] rfl
    refine ⟨[], horderly, ⟨?_, h.tracks.wellFormed, ?_⟩, hfew, hpoints, ?_, ?_, ?_⟩
    · rw [List.append_nil]
      exact h.tracks.reaches
    · exact ⟨(hholds [] rfl).length, (hholds [] rfl).cells⟩
    · rw [hsame, List.append_nil]
      exact h.observed
    · exact hhanded _ rfl
    · rw [List.append_nil]
      exact fun happKit => h.valid (fromAppKit_of_concat happKit)
  | started monitor hnone hm =>
    obtain ⟨hfew, hpoints⟩ := h.quiet (.start receiver appKit)
      [.called .start] rfl
    have hheld := hholds [.called .start] rfl
    refine ⟨[.called .start], horderly, ⟨hreaches, hwf, hheld.length, hheld.cells⟩, hfew, hpoints,
      ?_, hhanded _ rfl, fun happKit => (hvalid (fromAppKit_of_concat happKit)).2⟩
    rw [observer_append]
    exact observed_append _ _
  | unavailable hnone =>
    have hstop : QueueModel.Calls s.session.core.start.model .stop [.called .stop, .stopped]
        s.session.core.start.halt.model := .closed (by simp [AppleDeliveryCore.start,
          AppleDeliveryCore.model, AppleDeliveryCore.cursor, AppleDeliveryCore.resetContact])
    obtain ⟨hfew, hpoints⟩ := h.quiet (.start receiver appKit)
      ([.called .start] ++ [.called .stop, .stopped]) rfl
    have hlast (happKit : FromAppKit steps) :=
      valid_preserves _ _ .stop _ _ ⟨trivial, by simp⟩ hstop (hvalid happKit)
    have hheld := hholds ([.called .start] ++ [.called .stop, .stopped]) rfl
    have hallowed : QueueModel.FewEvents (trace ++ [.called .start]) s.session.core.start.model
      .stop := trivial
    refine ⟨[.called .start] ++ [.called .stop, .stopped], horderly, ⟨?_, hwf.emptied, ?_⟩, hfew,
      hpoints, ?_, hhanded _ rfl, ?_⟩
    · rw [← List.append_assoc]
      exact .call hreaches hallowed hstop
    · exact ⟨hheld.length, hheld.cells⟩
    · rw [observer_append]
      exact observed_append _ _
    · rw [← List.append_assoc]
      exact fun happKit => (hlast (fromAppKit_of_concat happKit)).2

theorem Reached.stop (hpos : 0 < bound) (h : Reached bound steps trace s) :
    ∃ events, QueueModel.Calls s.session.core.model .stop events
        (s.perform .stop).session.core.model ∧
      (s.perform .stop).trace = s.trace ++ events.filterMap (visible s.receiver) ++ [.stopped] ∧
      Reached bound (steps ++ [.stop]) (trace ++ events) (s.perform .stop) := by
  have hunbound : s.stopCapture.receiver = none →
      s.stopCapture.session.core.started = false := by
    intro hnone
    have hreceiver : s.receiver = none := hnone
    have hiff := h.orderly.consistent.receiver
    rw [hreceiver] at hiff
    have hstopped : s.session.core.started = false := by simpa using hiff
    exact hstopped
  have htracks : Tracks bound trace s.stopCapture :=
    ⟨h.tracks.reaches, h.tracks.wellFormed, h.tracks.holds.length, h.tracks.holds.cells⟩
  have hallowed : QueueModel.FewEvents trace s.stopCapture.session.core.model .stop := trivial
  obtain ⟨events, hcall, htracks', hshown⟩ := htracks.call hpos hunbound (by simp) hallowed
  have hvalid := h.valid_call (by simp) hcall
  have hevents : eventsIn events = [] := by
    rw [eventsIn, hcall.callsOf_eq]
    rfl
  obtain ⟨hfew, hpoints⟩ := h.quiet .stop events hevents
  have hnoted : (s.perform .stop).trace =
      (s.stopCapture.performCore .stop).trace ++ [.stopped] := rfl
  have hsame : s.stopCapture.trace = s.trace := rfl
  refine ⟨events, hcall, by rw [hnoted, hshown]; rfl, h.orderly.stop,
    ⟨htracks'.reaches, htracks'.wellFormed, ?_⟩, hfew, hpoints, ?_, ?_,
    fun happKit => (hvalid (fromAppKit_of_concat happKit)).2⟩
  · exact ⟨htracks'.holds.length, htracks'.holds.cells⟩
  · have hforgets : observer (trace ++ events) = {} := by
      rw [observer_append]
      generalize (s.stopCapture.performCore .stop).session.core.model = last at hcall
      cases hcall <;> rfl
    rw [hforgets]
    exact observed_append _ _
  · have hlast : handedOver [(.stopped : SourceEvent ι)] = [] := rfl
    rw [hnoted, handedOver_append, hlast, List.append_nil, hshown, handedOver_append, hsame,
      h.handed, offerings_append]
    cases hreceiver : s.stopCapture.receiver with
    | some receiver => rw [handedOver_visible]
    | none =>
      have hstopped : s.stopCapture.session.core.model.started = false := hunbound hreceiver
      rw [visible_none]
      generalize (s.stopCapture.performCore .stop).session.core.model = last at hcall
      cases hcall with
      | cancelled hstarted => simp [hstopped] at hstarted
      | closed => rfl

/-- The queue that Create allocates has between one and 1024 places. -/
theorem reached_of_create {memory : Fake.Memory} {descriptor : InputSourceDescriptor} {world : ω}
    {source : InputSource ι (Observed ι ω)}
    (h : create memory descriptor { world := world } = .ok source) :
    0 < descriptor.maximumQueuedBatches.toNat ∧
      Reached descriptor.maximumQueuedBatches.toNat [] [] source := by
  have horderly := orderly_of_create h
  obtain ⟨hpos, hfollows⟩ := Watched.follows_of_create h
  have hreaches := hfollows.reaches
  have hholds := (hfollows.conforms ⟨always_nil, always_nil⟩).holds
  have hcore : source.session.core.model =
      { capacity := descriptor.maximumQueuedBatches.toNat } ∧ source.trace = [] := by
    rw [create] at h
    split_ifs at h
    obtain rfl := Except.ok.inj h
    exact ⟨rfl, rfl⟩
  have hvalid : Valid [] source.session.core.model := by
    rw [hcore.1]
    exact .of_closed (c := {}) rfl rfl rfl always_nil
  refine ⟨hpos, horderly, ⟨?_, hfollows.wellFormed, hholds⟩, by simp, by simp, ?_, ?_,
    fun _ => hvalid⟩
  · rw [hcore.1]
    exact .init
  · rw [hcore.2]
    rfl
  · rw [hcore.2]
    rfl

/-- Behind every sequence of steps. -/
theorem run_reached {source : InputSource ι (Observed ι ω)} (hpos : 0 < bound)
    (h : Reached bound [] [] source) (steps : List (SourceStep ι))
    (hfew : 2 * steps.length < 2 ^ 64) : ∃ trace, Reached bound steps trace (run source steps) := by
  induction steps using List.reverseRecOn with
  | nil => exact ⟨[], h⟩
  | append_singleton steps step ih =>
    obtain ⟨trace, hreached⟩ := ih (by rw [List.length_append] at hfew; omega)
    rw [run, List.foldl_concat]
    cases step with
    | start receiver appKit => exact (hreached.start receiver appKit).imp' _ fun _ => id
    | stop =>
      obtain ⟨events, -, -, hnext⟩ := hreached.stop hpos
      exact ⟨_, hnext⟩
    | capture event | resignActive | fire index =>
      obtain ⟨events, -, -, hnext⟩ := hreached.serve hpos (by simp) (by simp) hfew
      exact ⟨_, hnext⟩

/-- What a receiver sees, place by place, is an offer of the core. -/
theorem offer_of_visible {receiver seenBy : ι} {events : List CoreEvent}
    {before after : List (SourceEvent ι)} {batch : InputBatch} {result : DeliveryResult}
    (h : events.filterMap (visible (some receiver)) =
      before ++ .receive seenBy batch result :: after) :
    ∃ earlier later mask d decision, events = earlier ++ .receive mask d decision :: later ∧
      earlier.filterMap (visible (some receiver)) = before ∧ batch = toBatch d := by
  obtain ⟨earlier, rest, rfl, hbefore, hrest⟩ := List.filterMap_eq_append_iff.mp h
  obtain ⟨silent, event, later, rfl, hsilent, hevent, -⟩ := List.filterMap_eq_cons_iff.mp hrest
  cases event with
  | receive mask d decision =>
    obtain ⟨-, rfl, -⟩ := SourceEvent.receive.inj (Option.some.inj hevent)
    refine ⟨earlier ++ silent, later, mask, d, decision, by simp, ?_, rfl⟩
    rw [List.filterMap_append, hbefore, List.filterMap_eq_nil_iff.mpr hsilent, List.append_nil]
  | called op | stopped => simp [visible] at hevent
  | failed failure => simp [visible] at hevent

/-- An offer that a step other than Stop leads to is not one of Stop. -/
theorem not_stopping_of_served {q q' : QueueModel} {ops : List CoreOp} {trace : List CoreEvent}
    {earlier later : List CoreEvent} {mask : UInt16} {d : Delivery} {decision : DeliveryDecision}
    (h : Serves QueueModel.Calls q ops (earlier ++ .receive mask d decision :: later) q')
    (hops : ∀ op ∈ ops, op ≠ .start ∧ op ≠ .stop) : stopping (trace ++ earlier) = false := by
  have hrunning := served_running h hops
  cases earlier with
  | nil =>
    obtain ⟨op, hop⟩ := served_head h hops rfl
    cases hop
  | cons first earlier =>
    obtain ⟨op, rfl⟩ := served_head h hops rfl
    have hne : callsOf (CoreEvent.called op :: earlier) ≠ [] :=
      List.cons_ne_nil op (callsOf earlier)
    rw [stopping, callsOf_append, List.getLast?_append_of_ne_nil _ hne]
    cases hlast : (callsOf (CoreEvent.called op :: earlier)).getLast? with
    | none => rfl
    | some last =>
      obtain ⟨event, hevent, hcall⟩ := List.mem_filterMap.mp (List.mem_of_getLast? hlast)
      cases event with
      | called called =>
        obtain rfl := Option.some.inj hcall
        have hstop := (hrunning _ (List.mem_append_left _ hevent)).2.1
        simpa using hstop
      | stopped | receive mask d decision | failed failure => simp [CoreEvent.call?] at hcall

omit [IInputReceiver ι ω] in
/-- What calls from the monitor hand over passes the public batch check from the state of the
receiver. -/
theorem Reached.handed_over (h : Reached bound steps trace s) (receiver : ι) {ops : List CoreOp}
    (hops : ∀ op ∈ ops, op ≠ .start ∧ op ≠ .stop)
    {events : List CoreEvent} {s' : InputSource ι (Observed ι ω)}
    (hserves : Serves QueueModel.Calls s.session.core.model ops events s'.session.core.model)
    {steps' : List (SourceStep ι)} (hnext : Reached bound steps' (trace ++ events) s')
    (happKit : FromAppKit steps') {earlier later : List CoreEvent} {mask : UInt16}
    {d : Delivery} {decision : DeliveryDecision}
    (hsplit : events = earlier ++ .receive mask d decision :: later) :
    (validateBatch (toBatch d) publicCapabilities
      (MacOS.observed (s.trace ++ earlier.filterMap (visible (some receiver))))).isOk := by
  subst hsplit
  have hoffer := (hnext.valid happKit).offers (trace ++ earlier) (.receive mask d decision) later
    (List.append_assoc ..).symm
  have hrunning := served_running hserves hops
  have hsame : MacOS.observed (s.trace ++ earlier.filterMap (visible (some receiver))) =
      observer (trace ++ earlier) := by
    rw [observed_append, observer_append, h.observed]
    exact foldl_visible receiver _ fun event he =>
      ⟨(hrunning event (List.mem_append_left _ he)).1,
        (hrunning event (List.mem_append_left _ he)).2.2⟩
  rw [hsame]
  exact hoffer (not_stopping_of_served hserves hops)

/-- Start hands nothing over. -/
theorem perform_start_trace (s : InputSource ι (Observed ι ω)) (receiver : ι) (appKit : AppKit) :
    (s.perform (.start receiver appKit)).trace =
      s.trace ++ [.started receiver (s.start receiver appKit).1] := by
  have hcases := start_cases receiver appKit s
  rw [perform]
  generalize s.start receiver appKit = outcome at hcases ⊢
  cases hcases <;> rfl

/-- Whatever AppKit captures and the receivers answer, every batch that a step other than Stop
hands over passes the public batch check from the state of the receiver. -/
theorem hands_over_valid {memory : Fake.Memory} {descriptor : InputSourceDescriptor} {world : ω}
    {source : InputSource ι (Observed ι ω)}
    (h : create memory descriptor { world := world } = .ok source)
    (steps : List (SourceStep ι)) (step : SourceStep ι) (hstep : step ≠ .stop)
    (hfew : 2 * (steps ++ [step]).length < 2 ^ 64) (happKit : FromAppKit (steps ++ [step])) :
    ∃ events, (run source (steps ++ [step])).trace = (run source steps).trace ++ events ∧
      Always (fun before => HandsOverValid ((run source steps).trace ++ before)) events := by
  obtain ⟨hpos, hfirst⟩ := reached_of_create h
  obtain ⟨trace, hreached⟩ := run_reached hpos hfirst steps
    (by rw [List.length_append] at hfew; omega)
  have hlast : run source (steps ++ [step]) = (run source steps).perform step := by
    rw [run, List.foldl_concat, run]
  rw [hlast]
  by_cases hstart : ∃ receiver appKit, step = .start receiver appKit
  · obtain ⟨receiver, appKit, rfl⟩ := hstart
    exact ⟨_, perform_start_trace _ receiver appKit, (always_cons _ _).mpr ⟨trivial, always_nil⟩⟩
  · have hmain := fun receiver appKit he => hstart ⟨receiver, appKit, he⟩
    obtain ⟨events, hserves, hshown, hnext⟩ := hreached.serve hpos hmain hstep hfew
    refine ⟨_, hshown, fun before event after heq => ?_⟩
    cases event with
    | started _ _ | stopped | sourceFailed _ _ => trivial
    | receive seenBy batch result =>
      cases hreceiver : (run source steps).receiver with
      | none =>
        rw [hreceiver, visible_none] at heq
        exact absurd heq (by simp)
      | some receiver =>
        rw [hreceiver] at heq
        obtain ⟨earlier, later, mask, d, decision, hsplit, rfl, rfl⟩ := offer_of_visible heq
        exact hreached.handed_over receiver (coreOpsOf_running _ _) hserves hnext happKit hsplit

/-- The closure runs after a drag was refused, and hands it over once more. -/
theorem hands_over_valid_refused :
    ∃ events, (run oneSlot (refusedTwice.dropLast ++ [.fire 0])).trace =
        (run oneSlot refusedTwice.dropLast).trace ++ events ∧
      Always (fun before => HandsOverValid ((run oneSlot refusedTwice.dropLast).trace ++ before))
        events := by
  have hfinite (event : NSEvent) (h : event = { type := event.type }) : event.Finite := by
    have hzero : Binary64.zero.isFinite := by decide
    rw [h]
    exact ⟨hzero, hzero, fun _ => ⟨hzero, hzero, hzero, hzero⟩⟩
  have hplain : ∀ event ∈ mouseEvents (refusedTwice.dropLast ++ [.fire 0]),
      event = { type := event.type } := by decide
  have happKit : FromAppKit (refusedTwice.dropLast ++ [.fire 0]) :=
    ⟨fun event hevent => hfinite event (hplain event hevent), by decide⟩
  exact hands_over_valid oneSlot_created _ _ (by simp) (by decide) happKit

end InputSource
end LightPhi.MacOS
