import LightPhi.Apple.ReportedCapabilities
import LightPhi.Input.LeastCapabilities
import LightPhi.MacOS.NothingLost

/-! What the macOS source reports while it hands something over. The monitor keeps the eraser in
step with the report, so only a device that comes in between can take back what a waiting batch
needs. -/
namespace LightPhi.MacOS
open Base Input Apple Word
open Fake (IInputReceiver)
variable {ι ω : Type*}

section Queue
variable {q q' : QueueModel} {op : CoreOp} {events : List CoreEvent}

/-- Whether a call is the report of a device. -/
def reportsDevice : CoreOp → Bool
  | .submit event => event.kind == .DeviceObserved
  | .start | .retryPending | .stop => false

theorem drains_mask (h : QueueModel.Drains q events q') :
    q'.capabilities = q.capabilities ∧
      ∀ mask d decision, CoreEvent.receive mask d decision ∈ events → mask = q.capabilities := by
  induction h with
  | done => exact ⟨rfl, by simp⟩
  | accepted hs hq _ ih =>
    refine ⟨ih.1, fun mask d decision hmem => ?_⟩
    cases List.mem_cons.mp hmem with
    | inl hfirst => exact (CoreEvent.receive.inj hfirst).1
    | inr hlater => exact ih.2 mask d decision hlater
  | busy hs hq | rejected hs hq =>
    refine ⟨rfl, fun mask d decision hmem => ?_⟩
    exact (CoreEvent.receive.inj (List.mem_singleton.mp hmem)).1

/-- Only the report of a device takes capabilities back. -/
theorem calls_contains {bits : UInt16} (h : QueueModel.Calls q op events q')
    (hop : reportsDevice op = false) (hbits : contains q.capabilities bits) :
    contains q'.capabilities bits := by
  cases h with
  | start | ignored | stray | cancelled | closed => exact hbits
  | @device event _ hk => simp [reportsDevice, hk] at hop
  | @queued event new _ _ _ _ _ _ _ _ hdrain =>
    rw [(drains_mask hdrain).1]
    exact QueueModel.contains_maskAfter event hbits
  | @overflow event cursor mask _ _ _ hcut =>
    cases hcut with
    | inl hcut =>
      obtain ⟨-, rfl⟩ := hcut
      exact hbits
    | inr hcut =>
      obtain ⟨-, rfl⟩ := hcut
      exact QueueModel.contains_maskAfter event hbits
  | retried hdrain => rwa [(drains_mask hdrain).1]

theorem served_contains {ops : List CoreOp} {bits : UInt16}
    (h : Serves QueueModel.Calls q ops events q') (hops : ∀ op ∈ ops, reportsDevice op = false)
    (hbits : contains q.capabilities bits) : contains q'.capabilities bits := by
  induction h with
  | nil => exact hbits
  | cons hc _ ih =>
    obtain ⟨hop, hlater⟩ := List.forall_mem_cons.mp hops
    exact ih hlater (calls_contains hc hop hbits)

end Queue

namespace InputSource

/-- What the source reports: the mask of its core, and batches of one sample. -/
def capabilities (s : InputSource ι ω) : InputSourceCapabilities :=
  { available := s.session.core.capabilities, maximumBatchSamples := 1 }

/-- The calls of a step, one or two: only the first can report a device, and only a monitor that
knows the eraser end submits it. -/
inductive StepCalls (s : InputSource ι ω) : List CoreOp → Prop
  | nothing : StepCalls s []
  | one {op} (h : ∀ event, op = .submit event → event.eraser →
      ∃ monitor, s.monitor = some monitor ∧ monitor.eraser) : StepCalls s [op]
  | reported {report captured} (hreport : report.kind = .DeviceObserved)
      (hplain : report.eraser = false) (hkind : captured.kind ≠ .DeviceObserved)
      (heraser : captured.eraser = false) : StepCalls s [.submit report, .submit captured]

/-- The devices a step reports, as capability masks. -/
def reports (s : InputSource ι ω) (step : SourceStep ι) : List UInt16 :=
  ((submittedBy (s.coreOpsOf step)).filter (·.kind = .DeviceObserved)).map (·.capabilities)

/-- A device that a step reports knows everything that still waits. -/
def ReportsFit (s : InputSource ι ω) (step : SourceStep ι) : Prop :=
  ∀ mask ∈ s.reports step, ∀ d ∈ s.session.core.pending, Covers mask d

instance (s : InputSource ι ω) (step : SourceStep ι) : Decidable (s.ReportsFit step) :=
  List.decidableBAll (fun mask => ∀ d ∈ s.session.core.pending, Covers mask d) (s.reports step)

theorem capturedEvent_eraser {event : NSEvent} {eraser : Bool} {captured : CapturedEvent}
    (h : capturedEvent event eraser = some captured) :
    captured.kind ≠ .DeviceObserved ∧
      (captured.eraser → eraser ∧ event.tabletPoint) := by
  rw [capturedEvent] at h
  obtain ⟨kind, hkind, rfl⟩ := Option.map_eq_some_iff.mp h
  have hpoint : kind ≠ .DeviceObserved := by
    rintro rfl
    cases htype : event.type <;> simp [capturedKind, htype] at hkind
  split_ifs with htablet
  · exact ⟨hpoint, by simp⟩
  · exact ⟨hpoint, fun heraser => ⟨heraser, by simpa using htablet⟩⟩

theorem stepCalls_plain (s : InputSource ι ω) {event : CapturedEvent}
    (h : event.eraser = false) : StepCalls s [.submit event] := by
  refine .one fun other he => ?_
  obtain rfl := CoreOp.submit.inj he
  simp [h]

theorem stepCalls_captured {s : InputSource ι ω} {monitor : MacOSInputMonitor}
    (hm : s.monitor = some monitor) (event : NSEvent) :
    StepCalls s ((monitor.submissions event).map .submit) := by
  rw [MacOSInputMonitor.submissions]
  split_ifs
  · exact stepCalls_plain s rfl
  · exact stepCalls_plain s rfl
  · exact .nothing
  · have hcaptured (captured : CapturedEvent)
        (h : capturedEvent event monitor.eraser = some captured) :
        StepCalls s [.submit captured] := by
      refine .one fun other he heraser => ⟨monitor, hm, ?_⟩
      obtain rfl := CoreOp.submit.inj he
      exact ((capturedEvent_eraser h).2 heraser).1
    rw [MacOSInputMonitor.pointerReport]
    split_ifs with hfirst
    · have hpointer : event.tabletPoint = false := by
        cases htablet : event.tabletPoint
        · rfl
        · simp [htablet] at hfirst
      cases h : capturedEvent event monitor.eraser with
      | none => exact stepCalls_plain s rfl
      | some captured =>
        obtain ⟨hkind, heraser⟩ := capturedEvent_eraser h
        refine .reported rfl rfl hkind ?_
        by_contra hset
        obtain ⟨-, htablet⟩ := heraser (by simpa using hset)
        simp [htablet] at hpointer
    · cases h : capturedEvent event monitor.eraser with
      | none => exact .nothing
      | some captured => exact hcaptured captured h

theorem stepCalls_coreOpsOf (s : InputSource ι ω) (step : SourceStep ι) :
    StepCalls s (s.coreOpsOf step) := by
  cases step with
  | start receiver appKit | stop => exact .nothing
  | capture event =>
    rw [coreOpsOf]
    cases hm : s.monitor with
    | none => exact .nothing
    | some monitor =>
      simp only
      split_ifs
      · exact stepCalls_captured hm event
      · exact .nothing
  | resignActive =>
    rw [coreOpsOf]
    cases s.monitor with
    | none => exact .nothing
    | some monitor =>
      simp only
      split_ifs
      · exact stepCalls_plain s rfl
      · exact .nothing
  | fire index =>
    rw [coreOpsOf]
    split
    · split_ifs
      · exact .one (by simp)
      · exact .nothing
    · exact .nothing

/-- A monitor that has seen a tablet reports a device for a proximity event only. -/
theorem no_report {s : InputSource ι ω} {monitor : MacOSInputMonitor}
    (hm : s.monitor = some monitor) (hseen : monitor.observedTablet) (step : SourceStep ι)
    (hstep : ∀ event, step = .capture event → event.type = .tabletProximity →
      ¬ monitor.eventMonitor) :
    ∀ op ∈ s.coreOpsOf step, reportsDevice op = false := by
  intro op hop
  cases step with
  | start receiver appKit | stop => simp [coreOpsOf] at hop
  | capture event =>
    simp only [coreOpsOf, hm] at hop
    split_ifs at hop with hlistens
    · obtain ⟨captured, hcaptured, rfl⟩ := List.mem_map.mp hop
      have hother : event.type ≠ .tabletProximity := fun htype =>
        hstep event rfl htype hlistens
      rw [MacOSInputMonitor.submissions, if_neg hother] at hcaptured
      split_ifs at hcaptured
      · rw [List.mem_singleton.mp hcaptured]
        rfl
      · simp at hcaptured
      · have hnone : monitor.pointerReport event = [] := by
          simp [MacOSInputMonitor.pointerReport, hseen]
        rw [hnone, List.nil_append, Option.mem_toList] at hcaptured
        simpa [reportsDevice] using (capturedEvent_eraser hcaptured).1
    · simp at hop
  | resignActive =>
    simp only [coreOpsOf, hm] at hop
    split_ifs at hop
    · rw [List.mem_singleton.mp hop]
      rfl
    · simp at hop
  | fire index =>
    rw [coreOpsOf] at hop
    split at hop
    · split_ifs at hop
      · rw [List.mem_singleton.mp hop]
        rfl
      · simp at hop
    · simp at hop

theorem contains_mapAppKit (mask : UInt64) :
    contains (mapAppKitCapabilities mask true) CapturedCapability.Eraser := by
  simp only [mapAppKitCapabilities, if_true]
  exact contains_or_right _ _

/-- The report of a tablet whose eraser end is used. -/
def proximityReport (mask : UInt64) : CapturedEvent :=
  { kind := .DeviceObserved, capabilities := mapAppKitCapabilities mask true }

theorem contains_reported {q q' : QueueModel} {events : List CoreEvent} {mask : UInt64}
    (h : Serves QueueModel.Calls q [.submit (proximityReport mask)] events q')
    (hstarted : q.started) : contains q'.capabilities CapturedCapability.Eraser := by
  cases h with
  | cons hcall hrest =>
    cases hrest
    cases hcall with
    | ignored hstopped => simp [hstopped] at hstarted
    | device => exact contains_or_left _ (contains_mapAppKit mask)
    | stray _ hk | queued _ hk | overflow _ hk => exact absurd rfl hk

/-- The source reports the time, all that waiting deliveries carry, and the eraser as long as the
monitor uses that end. -/
structure Backed (s : InputSource ι ω) : Prop where
  reports : QueueModel.Reports [] s.session.core.model
  eraser : ∀ monitor, s.monitor = some monitor → monitor.eraser →
    monitor.observedTablet ∧ contains s.session.core.capabilities CapturedCapability.Eraser

theorem reports_behind {trace : List CoreEvent} {q : QueueModel} (h : QueueModel.Reports trace q) :
    QueueModel.Reports [] q :=
  ⟨h.timestamp, h.pending, always_nil⟩

section Step
variable {s : InputSource ι ω} {step : SourceStep ι} {events : List CoreEvent} {q : QueueModel}

/-- The calls of a step are such that the report keeps up. -/
theorem Backed.reports_served (h : s.Backed) (hfits : s.ReportsFit step)
    (hserves : Serves QueueModel.Calls s.session.core.model (s.coreOpsOf step) events q) :
    QueueModel.Reports events q := by
  refine hserves.preserves_where QueueModel.reports_calls.preserves ?_ h.reports
  have hshape := s.stepCalls_coreOpsOf step
  have hcovers (event : CapturedEvent) (hmem : event ∈ submittedBy (s.coreOpsOf step))
      (hkind : event.kind = .DeviceObserved) : ∀ d ∈ s.session.core.pending,
      Covers event.capabilities d :=
    hfits _ (List.mem_map.mpr ⟨event, List.mem_filter.mpr ⟨hmem, by simpa using hkind⟩, rfl⟩)
  intro before op after hsplit earlier middle hearlier
  generalize s.coreOpsOf step = ops at hshape hcovers hsplit
  cases hshape with
  | nothing => simp at hsplit
  | @one only honly =>
    obtain ⟨rfl, rfl, rfl⟩ : before = [] ∧ op = only ∧ after = [] := by
      cases before with
      | nil => simpa using hsplit.symm
      | cons => simp at hsplit
    cases hearlier
    cases op with
    | submit event =>
      refine ⟨fun heraser => ?_, hcovers event (by simp [submittedBy, CoreOp.submitted?])⟩
      obtain ⟨monitor, hm, hset⟩ := honly event rfl heraser
      exact (h.eraser monitor hm hset).2
    | start | retryPending | stop => exact ⟨trivial, trivial⟩
  | @reported report captured hreport hplain hkind heraser =>
    cases before with
    | nil =>
      obtain ⟨rfl, rfl⟩ := List.cons.inj hsplit
      cases hearlier
      exact ⟨by simp [EraserReported, hplain],
        hcovers report (by simp [submittedBy, CoreOp.submitted?])⟩
    | cons first before =>
      obtain ⟨-, hrest⟩ := List.cons.inj hsplit
      obtain rfl : op = .submit captured := by
        cases before with
        | nil => exact (List.cons.inj hrest).1.symm
        | cons => simp at hrest
      exact ⟨by simp [EraserReported, heraser], by simp [ReportCoversQueue, hkind]⟩

end Step

section Run
variable [IInputReceiver ι ω] {bound : Nat} {steps : List (SourceStep ι)} {trace : List CoreEvent}
  {s : InputSource ι (Observed ι ω)} {step : SourceStep ι} {events : List CoreEvent}

/-- The monitor and the report agree on the eraser behind a step of the main thread. -/
theorem Backed.eraser_served (h : s.Backed) (horderly : s.Orderly)
    (hstart : ∀ receiver appKit, step ≠ .start receiver appKit) (hstop : step ≠ .stop)
    (hserves : Serves QueueModel.Calls s.session.core.model (s.coreOpsOf step) events
      (s.perform step).session.core.model) :
    ∀ left, (s.perform step).monitor = some left → left.eraser →
      left.observedTablet ∧
        contains (s.perform step).session.core.capabilities CapturedCapability.Eraser := by
  intro left hleft hset
  obtain ⟨monitor, hm, hsame⟩ := perform_monitor hstart hstop hleft
  have heraser := congrArg MacOSInputMonitor.eraser hsame
  have htablet := congrArg MacOSInputMonitor.observedTablet hsame
  have hafter : (monitor.after step).eraser := heraser.symm.trans hset
  suffices hgoal : (monitor.after step).observedTablet ∧
      contains (s.perform step).session.core.capabilities CapturedCapability.Eraser from
    ⟨htablet.trans hgoal.1, hgoal.2⟩
  by_cases hproximity : ∃ event, step = .capture event ∧ event.type = .tabletProximity ∧
      monitor.eventMonitor
  · obtain ⟨event, rfl, htype, hlistens⟩ := hproximity
    have hnoted : monitor.after (.capture event : SourceStep ι) =
        { monitor with eraser := event.eraserDevice, observedTablet := true } := by
      rw [MacOSInputMonitor.after, if_pos hlistens, MacOSInputMonitor.noting, if_pos htype]
    rw [hnoted] at hafter ⊢
    have hdevice : event.eraserDevice = true := hafter
    have hstarted : s.session.core.started := by
      apply horderly.consistent.monitor.mpr
      rw [hm]
      rfl
    have hops : s.coreOpsOf (.capture event) =
        [.submit (proximityReport event.capabilityMask)] := by
      simp [coreOpsOf, hm, hlistens, MacOSInputMonitor.submissions, htype, hdevice,
        proximityReport]
    rw [hops] at hserves
    exact ⟨rfl, contains_reported hserves hstarted⟩
  · have hkept : (monitor.after step).eraser = monitor.eraser ∧
        (monitor.after step).observedTablet = monitor.observedTablet := by
      cases step with
      | start receiver appKit | stop | resignActive | fire index => exact ⟨rfl, rfl⟩
      | capture event =>
        rw [MacOSInputMonitor.after]
        split_ifs with hlistens
        · have hother : event.type ≠ .tabletProximity := fun htype =>
            hproximity ⟨event, rfl, htype, hlistens⟩
          rw [MacOSInputMonitor.noting, if_neg hother]
          split_ifs <;> exact ⟨rfl, rfl⟩
        · exact ⟨rfl, rfl⟩
    obtain ⟨hseen, hreported⟩ := h.eraser monitor hm (hkept.1.symm.trans hafter)
    refine ⟨hkept.2.trans hseen, served_contains hserves ?_ hreported⟩
    exact no_report hm hseen step fun event he htype hlistens =>
      hproximity ⟨event, he, htype, hlistens⟩

theorem Backed.serve (h : s.Backed) (horderly : s.Orderly) (hfits : s.ReportsFit step)
    (hstart : ∀ receiver appKit, step ≠ .start receiver appKit) (hstop : step ≠ .stop)
    (hserves : Serves QueueModel.Calls s.session.core.model (s.coreOpsOf step) events
      (s.perform step).session.core.model) : (s.perform step).Backed :=
  ⟨reports_behind (h.reports_served hfits hserves), h.eraser_served horderly hstart hstop hserves⟩

omit [IInputReceiver ι ω] in
/-- A call that reports no device keeps the report up. -/
theorem Backed.reports_call (h : s.Backed) {op : CoreOp} (hop : op = .start ∨ op = .stop)
    {q : QueueModel} (hcall : QueueModel.Calls s.session.core.model op events q) :
    QueueModel.Reports [] q := by
  have hreports := QueueModel.reports_calls.preserves [] s.session.core.model op events q
    (by rcases hop with rfl | rfl <;> exact ⟨trivial, trivial⟩) hcall h.reports
  exact reports_behind hreports

/-- A new monitor uses the tip. -/
theorem Backed.start (h : s.Backed) (receiver : ι) (appKit : AppKit) :
    (s.perform (.start receiver appKit)).Backed := by
  have hstarted := h.reports_call (.inl rfl) (.start s.session.core.model)
  have hsucceeds := @start_succeeds ι ω _ s receiver appKit
  have hcases := start_cases receiver appKit s
  rw [perform]
  generalize s.start receiver appKit = outcome at hcases hsucceeds ⊢
  cases hcases with
  | bound => exact ⟨h.reports, h.eraser⟩
  | started monitor _ _ =>
    obtain ⟨-, -, hlistens⟩ := hsucceeds rfl
    refine ⟨hstarted, fun left hleft hset => ?_⟩
    have htip := (hlistens left hleft).eraser
    rw [htip] at hset
    cases hset
  | unavailable =>
    refine ⟨hstarted.stopped, fun left hleft => ?_⟩
    cases hleft

theorem Backed.stop (h : s.Backed) (hcall : QueueModel.Calls s.session.core.model .stop events
    (s.perform .stop).session.core.model) : (s.perform .stop).Backed := by
  refine ⟨h.reports_call (.inr rfl) hcall, fun left hleft => ?_⟩
  obtain ⟨target, hoffers, htarget, -⟩ := stop_offers s
  have hreleased : target.monitor = none :=
    (InputSourceImplementation.offers_frame hoffers).2.1
  have hmonitor : s.stop.session.target.monitor = some left := hleft
  rw [htarget, hreleased] at hmonitor
  cases hmonitor

end Run
end InputSource
end LightPhi.MacOS
