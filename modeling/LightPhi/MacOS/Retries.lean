import LightPhi.MacOS.Sessions
import Mathlib.Data.List.Perm.Basic

/-! No refused delivery is stranded: while deliveries wait in the core, the monitor has exactly one
retry closure on the main queue. -/
namespace LightPhi.MacOS
open Base Input Apple
open Fake (IInputReceiver)

namespace InputSource
open InputSourceImplementation
variable {ι ω : Type*}

/-- The closures on the main queue that will still find this monitor. -/
def outstanding (s : InputSource ι ω) (monitor : MacOSInputMonitor) : Nat :=
  s.mainQueue.count monitor.object

theorem count_eraseIdx {objects : List Nat} {index object : Nat}
    (h : objects[index]? = some object) (other : Nat) :
    objects.count other =
      (objects.eraseIdx index).count other + if object = other then 1 else 0 := by
  obtain ⟨hi, rfl⟩ := List.getElem?_eq_some_iff.mp h
  rw [← (List.getElem_cons_eraseIdx_perm hi).count_eq other, List.count_cons]
  simp

/-- Monitors have numbers of their own, and each counts its closures right. -/
structure Tracked (s : InputSource ι ω) : Prop where
  known : ∀ object ∈ s.mainQueue, object < s.session.target.monitorsCreated
  closures : ∀ monitor, s.monitor = some monitor →
    monitor.object < s.session.target.monitorsCreated ∧
      s.outstanding monitor = if monitor.retryScheduled then 1 else 0

/-- Nothing waits that no closure will offer again. -/
structure Scheduled (s : InputSource ι ω) : Prop extends Tracked s where
  pending : ∀ monitor, s.monitor = some monitor → s.session.core.hasPending →
    monitor.retryScheduled

section Scheduled
variable {s s' : InputSource ι ω} {monitor : MacOSInputMonitor}

/-- What the closures depend on decides whether they are counted right. -/
theorem Tracked.of_schedule (h : Tracked s) (hqueue : s'.mainQueue = s.mainQueue)
    (hcreated : s'.session.target.monitorsCreated = s.session.target.monitorsCreated)
    (hmonitor : s'.monitor.map schedule = s.monitor.map schedule) : Tracked s' := by
  refine ⟨?_, fun monitor hm => ?_⟩
  · rw [hqueue, hcreated]
    exact h.known
  · rw [hm, Option.map_some, eq_comm, Option.map_eq_some_iff] at hmonitor
    obtain ⟨old, hold, hsame⟩ := hmonitor
    obtain ⟨hobject, hscheduled⟩ := Prod.mk.inj hsame
    have hclosures := h.closures old hold
    rw [hcreated, ← hobject, ← hscheduled]
    exact ⟨hclosures.1, by rw [← hclosures.2, outstanding, outstanding, hqueue, hobject]⟩

/-- Without a monitor there is nothing to schedule. -/
theorem Scheduled.of_released (hknown : ∀ object ∈ s.mainQueue,
    object < s.session.target.monitorsCreated) (hm : s.monitor = none) : Scheduled s where
  known := hknown
  closures monitor h := by simp [hm] at h
  pending monitor h := by simp [hm] at h

/-- The closure that is left, when deliveries wait, is the only one. -/
theorem Tracked.served (h : Tracked s)
    (hm : s.monitor.map schedule = some (schedule monitor)) :
    Scheduled (served monitor (s.session.core.hasPending, s)) := by
  rw [Option.map_eq_some_iff] at hm
  obtain ⟨current, hcurrent, hsame⟩ := hm
  obtain ⟨hobject, hscheduled⟩ := Prod.mk.inj hsame
  obtain ⟨hknown, hcount⟩ := h.closures current hcurrent
  rw [InputSource.served, retryIfPending]
  split_ifs with hkeep
  · refine ⟨h, fun other hother hpending => ?_⟩
    obtain rfl := Option.some.inj (hcurrent.symm.trans hother)
    rw [hscheduled]
    simpa [hpending] using hkeep
  · simp only [Bool.or_eq_true, Bool.not_eq_true', not_or, Bool.not_eq_true] at hkeep
    have hnone : s.mainQueue.count monitor.object = 0 := by
      rw [outstanding, hobject] at hcount
      simpa [hscheduled, hkeep.2] using hcount
    have hupdated : (s.scheduleRetry monitor).monitor =
        some { current with retryScheduled := true } :=
      (updateMonitor_monitor _ s).trans (congrArg (Option.map _) hcurrent)
    have hqueue : (s.scheduleRetry monitor).mainQueue = s.mainQueue ++ [monitor.object] := rfl
    refine ⟨⟨?_, fun other hother => ?_⟩, fun other hother _ => ?_⟩
    · rw [hqueue]
      intro object hmem
      cases List.mem_append.mp hmem with
      | inl hold => exact h.known object hold
      | inr hnew =>
        rw [List.mem_singleton.mp hnew, ← hobject]
        exact hknown
    · obtain rfl := Option.some.inj (hupdated.symm.trans hother)
      refine ⟨hknown, ?_⟩
      rw [outstanding, hqueue, List.count_append, hobject, hnone]
      simp
    · obtain rfl := Option.some.inj (hupdated.symm.trans hother)
      rfl

theorem Tracked.known_eraseIdx (h : Tracked s) (index : Nat) :
    ∀ object ∈ s.mainQueue.eraseIdx index, object < s.session.target.monitorsCreated :=
  fun object hmem => h.known object (List.mem_of_mem_eraseIdx hmem)

/-- A call into the core keeps what the closures depend on, or ends the session. -/
theorem Scheduled.of_leaves [IInputReceiver ι ω]
    {session : Session (InputSourceImplementation ι ω)} (h : Tracked s)
    (hm : s.monitor.map schedule = some (schedule monitor))
    (hleaves : s.session.Leaves session) :
    Scheduled (served monitor (session.core.hasPending, { s with session := session })) := by
  cases hleaves with
  | offers session hoffers hstarted =>
    obtain ⟨-, hmonitor, hcreated⟩ := offers_frame hoffers
    have hsame : InputSource.monitor { s with session := session } = s.monitor := hmonitor
    have htracked : Tracked { s with session := session } :=
      h.of_schedule rfl hcreated (by rw [hsame])
    exact htracked.served (by rw [hsame]; exact hm)
  | failed core =>
    obtain ⟨-, hmonitor, hcreated⟩ := failed_frame core.halt .Overflow s.session.target
    have hpending : core.halt.hasPending = false := rfl
    simp only [InputSource.served, retryIfPending, hpending, Bool.not_false, Bool.true_or, if_true]
    refine .of_released ?_ hmonitor
    simp only [hcreated]
    exact h.known

end Scheduled

section Steps
variable [IInputReceiver ι ω] {s : InputSource ι ω}

theorem Scheduled.reported (h : Scheduled s) (f : MacOSInputMonitor → MacOSInputMonitor)
    (hf : ∀ monitor, schedule (f monitor) = schedule monitor) (capabilities : UInt16) :
    Scheduled ((s.updateMonitor f).observeDevice capabilities) := by
  obtain ⟨htarget, hqueue, hpending⟩ := observeDevice_frame capabilities (s.updateMonitor f)
  have hschedule := schedule_reported (s := s) f hf capabilities
  have hcreated := congrArg InputSourceImplementation.monitorsCreated htarget
  refine ⟨h.toTracked.of_schedule hqueue hcreated hschedule, fun monitor hm hwaits => ?_⟩
  rw [hm, Option.map_some, eq_comm, Option.map_eq_some_iff] at hschedule
  obtain ⟨old, hold, hsame⟩ := hschedule
  rw [hpending, updateMonitor_core] at hwaits
  rw [← (Prod.mk.inj hsame).2]
  exact h.pending old hold hwaits

/-- The closure that runs was the only one of its monitor. -/
theorem Scheduled.retried {index : Nat} {monitor : MacOSInputMonitor} (h : Scheduled s)
    (hm : s.monitor = some monitor) (hq : s.mainQueue[index]? = some monitor.object) :
    Scheduled (InputSource.served { monitor with retryScheduled := false }
      (({ s with mainQueue := s.mainQueue.eraseIdx index }.updateMonitor
        fun monitor => { monitor with retryScheduled := false }).retryPending)) := by
  obtain ⟨hknown, hcount⟩ := h.closures monitor hm
  set fired := { s with mainQueue := s.mainQueue.eraseIdx index }.updateMonitor
    fun monitor => { monitor with retryScheduled := false } with hfired
  have hmonitor : fired.monitor = some { monitor with retryScheduled := false } :=
    congrArg (Option.map _) hm
  have hnone : (s.mainQueue.eraseIdx index).count monitor.object = 0 := by
    have herased := count_eraseIdx hq monitor.object
    rw [if_pos rfl] at herased
    rw [outstanding] at hcount
    split_ifs at hcount <;> omega
  have htracked : Tracked fired := by
    refine ⟨h.toTracked.known_eraseIdx index, fun other hother => ?_⟩
    obtain rfl := Option.some.inj (hmonitor.symm.trans hother)
    exact ⟨hknown, hnone⟩
  obtain ⟨hoffers, hstarted⟩ := Session.drain_offers fired.session
  exact .of_leaves htracked (by rw [hmonitor, Option.map_some]) (.offers _ hoffers hstarted)

theorem scheduled_mainThread : MainThreadPreserves (Scheduled (ι := ι) (ω := ω)) where
  reported h f hf capabilities := h.reported f hf capabilities
  submitted {s monitor} h hm event :=
    .of_leaves h.toTracked hm (Session.submitEvent_leaves event s.session)
  retried h hm hq := h.retried hm hq
  dropped {s object index} h hq hm := by
    refine ⟨⟨h.toTracked.known_eraseIdx index, fun monitor hmonitor => ?_⟩, h.pending⟩
    obtain ⟨hknown, hcount⟩ := h.closures monitor hmonitor
    have herased := count_eraseIdx hq monitor.object
    rw [if_neg (hm monitor hmonitor).symm, Nat.add_zero] at herased
    exact ⟨hknown, by rw [← hcount, outstanding, outstanding, herased]⟩

theorem Scheduled.stop (h : Scheduled s) : Scheduled s.stop := by
  obtain ⟨target, hoffers, htarget, -⟩ := stop_offers s
  obtain ⟨-, hmonitor, hcreated⟩ := offers_frame hoffers
  refine .of_released ?_ ?_
  · rw [htarget]
    simp only [hcreated]
    exact h.known
  · rw [InputSource.monitor, htarget]
    exact hmonitor

theorem Scheduled.start (h : Scheduled s) (receiver : ι) (appKit : AppKit) :
    Scheduled (s.start receiver appKit).2 := by
  have hcases := start_cases receiver appKit s
  generalize s.start receiver appKit = outcome at hcases ⊢
  have hless : ∀ object ∈ s.mainQueue, object < s.session.target.monitorsCreated + 1 :=
    fun object hmem => Nat.lt_succ_of_lt (h.known object hmem)
  cases hcases with
  | bound _ => exact h
  | started monitor _ hm =>
    obtain ⟨hobject, hscheduled⟩ := Prod.mk.inj hm
    refine ⟨⟨hless, fun other hother => ?_⟩, fun other hother hpending => ?_⟩
    · obtain rfl := Option.some.inj hother
      have hnone : s.mainQueue.count monitor.object = 0 := by
        rw [List.count_eq_zero]
        intro hmem
        exact absurd (h.known _ hmem) (by rw [hobject]; exact lt_irrefl _)
      exact ⟨by rw [hobject]; exact Nat.lt_succ_self _, by rw [hscheduled]; exact hnone⟩
    · have hempty : s.session.core.start.hasPending = false := rfl
      simp [hempty] at hpending
  | unavailable _ => exact .of_released hless rfl

theorem Scheduled.perform {s : InputSource ι (Observed ι ω)} (h : Scheduled s)
    (step : SourceStep ι) : Scheduled (s.perform step) := by
  have hnoted {s : InputSource ι (Observed ι ω)} (h : Scheduled s) (event : SourceEvent ι) :
      Scheduled (s.note event) := ⟨⟨h.known, h.closures⟩, h.pending⟩
  cases step with
  | start receiver appKit => exact hnoted (h.start receiver appKit) _
  | stop => exact hnoted h.stop _
  | capture event => exact scheduled_mainThread.capture h event
  | resignActive => exact scheduled_mainThread.resignActive h
  | fire index => exact scheduled_mainThread.fire h index

end Steps

variable [IInputReceiver ι ω]

theorem run_scheduled {source : InputSource ι (Observed ι ω)} (h : Scheduled source)
    (steps : List (SourceStep ι)) : Scheduled (run source steps) := by
  induction steps using List.reverseRecOn with
  | nil => exact h
  | append_singleton steps step ih =>
    rw [run, List.foldl_concat]
    exact ih.perform step

omit [IInputReceiver ι ω] in
theorem scheduled_of_create {memory : Fake.Memory} {descriptor : InputSourceDescriptor} {world : ω}
    {source : InputSource ι ω} (h : create memory descriptor world = .ok source) :
    Scheduled source := by
  rw [create] at h
  split_ifs at h
  obtain rfl := Except.ok.inj h
  exact .of_released (by simp) rfl

/-- In every state between two steps, deliveries that wait have exactly one closure that will offer
them again, and without one nothing waits. -/
theorem nothing_stranded {memory : Fake.Memory} {descriptor : InputSourceDescriptor} {world : ω}
    {source : InputSource ι (Observed ι ω)}
    (h : create memory descriptor { world := world } = .ok source)
    (steps : List (SourceStep ι)) :
    ((run source steps).session.core.hasPending →
        ∃ monitor, (run source steps).monitor = some monitor ∧ monitor.retryScheduled ∧
          (run source steps).outstanding monitor = 1) ∧
      ((∀ monitor, (run source steps).monitor = some monitor →
          (run source steps).outstanding monitor = 0) →
        ¬ (run source steps).session.core.hasPending) := by
  have hscheduled := run_scheduled (scheduled_of_create h) steps
  have hconsistent := (run_orderly (orderly_of_create h) steps).consistent
  have hfound : (run source steps).session.core.hasPending →
      ∃ monitor, (run source steps).monitor = some monitor ∧ monitor.retryScheduled ∧
        (run source steps).outstanding monitor = 1 := by
    intro hpending
    have hstarted := ((AppleDeliveryCore.hasPending_iff _).mp hpending).1
    obtain ⟨monitor, hm⟩ := Option.isSome_iff_exists.mp (hconsistent.monitor.mp hstarted)
    have hretry := hscheduled.pending monitor hm hpending
    obtain ⟨-, hcount⟩ := hscheduled.closures monitor hm
    exact ⟨monitor, hm, hretry, by rw [hcount, if_pos hretry]⟩
  refine ⟨hfound, fun hnone hpending => ?_⟩
  obtain ⟨monitor, hm, -, hone⟩ := hfound hpending
  rw [hnone monitor hm] at hone
  exact absurd hone (by decide)

/-- A drag is refused, the closure runs, and the drag is refused again. -/
def refusedTwice : List (SourceStep Unit) :=
  [.start () {}, .capture { type := .leftMouseDown }, .capture { type := .leftMouseDragged },
   .fire 0]

theorem nothing_stranded_refused :
    ((run oneSlot refusedTwice).session.core.hasPending →
        ∃ monitor, (run oneSlot refusedTwice).monitor = some monitor ∧ monitor.retryScheduled ∧
          (run oneSlot refusedTwice).outstanding monitor = 1) ∧
      ((∀ monitor, (run oneSlot refusedTwice).monitor = some monitor →
          (run oneSlot refusedTwice).outstanding monitor = 0) →
        ¬ (run oneSlot refusedTwice).session.core.hasPending) :=
  nothing_stranded oneSlot_created refusedTwice

end InputSource
end LightPhi.MacOS
