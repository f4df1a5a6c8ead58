import LightPhi.MacOS.Receivers

/-! What the steps of the main thread make of the monitor. -/
namespace LightPhi.MacOS
open Base Input Apple
open Fake (IInputReceiver)
variable {ι ω : Type*}

namespace MacOSInputMonitor

/-- A monitor but for the closure it may have scheduled. -/
def unscheduled (monitor : MacOSInputMonitor) : MacOSInputMonitor :=
  { monitor with retryScheduled := false }

/-- What a monitor notes of an event that it captures. -/
def noting (event : NSEvent) (monitor : MacOSInputMonitor) : MacOSInputMonitor :=
  if event.type = .tabletProximity then
    { monitor with eraser := event.eraserDevice, observedTablet := true }
  else if event.type = .mouseCancelled then monitor
  else if !event.tabletPoint && !monitor.acceptPointerFallback then monitor
  else if !event.tabletPoint && !monitor.observedTablet && !monitor.observedPointer then
    { monitor with observedPointer := true }
  else monitor

/-- What a monitor notes of a step. -/
def after (step : SourceStep ι) (monitor : MacOSInputMonitor) : MacOSInputMonitor :=
  match step with
  | .capture event => if monitor.eventMonitor then monitor.noting event else monitor
  | .start _ _ | .stop | .resignActive | .fire _ => monitor

end MacOSInputMonitor

namespace InputSource
variable [IInputReceiver ι ω] {s : InputSource ι ω}

/-- Whatever monitor there is comes from the given one. -/
def MonitorFrom (s : InputSource ι ω) (monitor : MacOSInputMonitor) : Prop :=
  ∀ left, s.monitor = some left → left.unscheduled = monitor.unscheduled

omit [IInputReceiver ι ω] in
theorem monitorFrom_self {monitor : MacOSInputMonitor} (h : s.monitor = some monitor) :
    s.MonitorFrom monitor := by
  intro left hleft
  rw [Option.some.inj (hleft.symm.trans h)]

omit [IInputReceiver ι ω] in
theorem MonitorFrom.updated {monitor : MacOSInputMonitor} (h : s.monitor = some monitor)
    (f : MacOSInputMonitor → MacOSInputMonitor) : (s.updateMonitor f).MonitorFrom (f monitor) := by
  apply monitorFrom_self
  rw [updateMonitor_monitor, h, Option.map_some]

section From
variable {monitor : MacOSInputMonitor} (h : s.MonitorFrom monitor)
include h

theorem MonitorFrom.submit (event : CapturedEvent) : (s.submit event).2.MonitorFrom monitor := by
  have hleaves := Session.submitEvent_leaves event s.session
  intro left hleft
  have hmonitor : (s.session.submitEvent event).target.monitor = some left := hleft
  generalize s.session.submitEvent event = session at hleaves hmonitor
  cases hleaves with
  | offers _ hoffers _ =>
    exact h left ((InputSourceImplementation.offers_frame hoffers).2.1.symm.trans hmonitor)
  | failed core =>
    rw [(InputSourceImplementation.failed_frame core.halt .Overflow s.session.target).2.1]
      at hmonitor
    cases hmonitor

theorem MonitorFrom.retryPending : s.retryPending.2.MonitorFrom monitor := by
  have hoffers := (Session.drain_offers s.session).1
  intro left hleft
  exact h left ((InputSourceImplementation.offers_frame hoffers).2.1.symm.trans hleft)

omit [IInputReceiver ι ω] in
/-- Scheduling a closure changes nothing else. -/
theorem MonitorFrom.rescheduled (f : MacOSInputMonitor → MacOSInputMonitor)
    (hf : ∀ monitor, (f monitor).unscheduled = monitor.unscheduled) :
    (s.updateMonitor f).MonitorFrom monitor := by
  intro left hleft
  obtain ⟨old, hold, rfl⟩ := Option.map_eq_some_iff.mp hleft
  rw [hf old, h old hold]

omit [IInputReceiver ι ω] in
theorem MonitorFrom.retryIfPending (other : MacOSInputMonitor) (pending : Bool) :
    (s.retryIfPending other pending).MonitorFrom monitor := by
  rw [InputSource.retryIfPending]
  split_ifs
  · exact h
  · apply h.rescheduled
    exact fun _ => rfl

end From

theorem captureWith_monitorFrom {monitor : MacOSInputMonitor} (h : s.monitor = some monitor)
    (event : NSEvent) : (s.captureWith monitor event).MonitorFrom (monitor.noting event) := by
  have hself := monitorFrom_self h
  rw [captureWith, MacOSInputMonitor.noting]
  split_ifs with hproximity hcancelled hignored hfirst
  · exact (MonitorFrom.updated h _).submit _
  · exact (hself.submit _).retryIfPending monitor _
  · exact hself
  · have hnoted : (s.observePointer monitor event).MonitorFrom
        { monitor with observedPointer := true } := by
      rw [observePointer, if_pos hfirst]
      exact (MonitorFrom.updated h _).submit _
    cases capturedEvent event monitor.eraser with
    | none => exact hnoted
    | some captured => exact (hnoted.submit captured).retryIfPending monitor _
  · have hkept : s.observePointer monitor event = s := by rw [observePointer, if_neg hfirst]
    rw [hkept]
    cases capturedEvent event monitor.eraser with
    | none => exact hself
    | some captured => exact (hself.submit captured).retryIfPending monitor _

/-- The monitor behind a step of the main thread is the one before it, with what it noted. -/
theorem perform_monitor {s : InputSource ι (Observed ι ω)} {step : SourceStep ι}
    (hstart : ∀ receiver appKit, step ≠ .start receiver appKit) (hstop : step ≠ .stop)
    {left : MacOSInputMonitor} (h : (s.perform step).monitor = some left) :
    ∃ monitor, s.monitor = some monitor ∧
      left.unscheduled = (monitor.after step).unscheduled := by
  cases step with
  | start receiver appKit => exact absurd rfl (hstart receiver appKit)
  | stop => exact absurd rfl hstop
  | capture event =>
    rw [perform, capture] at h
    cases hm : s.monitor with
    | none => simp [hm] at h
    | some monitor =>
      simp only [hm] at h
      refine ⟨monitor, rfl, ?_⟩
      rw [MacOSInputMonitor.after]
      split_ifs at h ⊢
      · exact captureWith_monitorFrom hm event left h
      · exact monitorFrom_self hm left h
  | resignActive =>
    rw [perform, resignActive] at h
    cases hm : s.monitor with
    | none => simp [hm] at h
    | some monitor =>
      simp only [hm] at h
      refine ⟨monitor, rfl, ?_⟩
      split_ifs at h
      · exact ((monitorFrom_self hm).submit _).retryIfPending monitor _ left h
      · exact monitorFrom_self hm left h
  | fire index =>
    rw [perform, fire] at h
    cases hq : s.mainQueue[index]? with
    | none => exact ⟨left, by simpa [hq] using h, rfl⟩
    | some object =>
      have hsame : InputSource.monitor { s with mainQueue := s.mainQueue.eraseIdx index } =
          s.monitor := rfl
      simp only [hq, retry, hsame] at h
      cases hm : s.monitor with
      | none => simp [hm, hsame] at h
      | some monitor =>
        simp only [hm] at h
        refine ⟨monitor, rfl, ?_⟩
        rw [hm] at hsame
        have hself := monitorFrom_self hsame
        split_ifs at h
        · have hfired := hself.rescheduled
            (fun monitor => { monitor with retryScheduled := false }) fun _ => rfl
          exact hfired.retryPending.retryIfPending _ _ left h
        · exact hself left h

end InputSource
end LightPhi.MacOS
