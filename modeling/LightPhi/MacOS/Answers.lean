import LightPhi.MacOS.Sessions

/-! The trace of a source tells its whole story: the world is what the calls in it have made of the
first one, and each answer in it is the one the receiver gave there. -/
namespace LightPhi.MacOS
open Base Input Apple
open Fake (IInputReceiver)
variable {ι ω : Type*} [IInputReceiver ι ω]

/-- What a call to a receiver makes of the world. -/
def lived (world : ω) : SourceEvent ι → ω
  | .receive receiver batch _ => (IInputReceiver.receive receiver batch world).2
  | .sourceFailed receiver error => IInputReceiver.sourceFailed receiver error world
  | .started _ _ | .stopped => world

def worldBehind (world : ω) (trace : List (SourceEvent ι)) : ω := trace.foldl lived world

/-- The answer that is written down is the answer of the receiver. -/
def Answered (world : ω) (before : List (SourceEvent ι)) : SourceEvent ι → Prop
  | .receive receiver batch result =>
    (IInputReceiver.receive receiver batch (worldBehind world before)).1 = result
  | _ => True

theorem worldBehind_concat (world : ω) (trace : List (SourceEvent ι)) (event : SourceEvent ι) :
    worldBehind world (trace ++ [event]) = lived (worldBehind world trace) event :=
  List.foldl_concat ..

theorem worldBehind_append (world : ω) (trace more : List (SourceEvent ι)) :
    worldBehind world (trace ++ more) = more.foldl lived (worldBehind world trace) :=
  List.foldl_append

/-- A world that is as its trace says. -/
structure Observed.Lives (first : ω) (observed : Observed ι ω) : Prop where
  world : observed.world = worldBehind first observed.trace
  answered : Always (Answered first) observed.trace

namespace InputSourceImplementation
variable {first : ω} {t t' : InputSourceImplementation ι (Observed ι ω)}

theorem lives_receive (h : t.world.Lives first) (core : AppleDeliveryCore) (d : Delivery) :
    (IDeliveryTarget.receive core d t).2.world.Lives first := by
  cases hreceiver : t.receiver with
  | none => simpa [receive_unbound hreceiver] using h
  | some receiver =>
    rw [receive_bound hreceiver]
    constructor
    · simp only [IInputReceiver.receive, worldBehind_concat, lived, ← h.world]
    · refine (always_concat _ _).mpr ⟨h.answered, ?_⟩
      simp only [Answered, ← h.world]

theorem lives_offers (h : t.world.Lives first) (hoffers : Offers t t') : t'.world.Lives first :=
  hoffers.preserves (fun t => t.world.Lives first) (fun core d _ ht => lives_receive ht core d) h

theorem lives_failed (h : t.world.Lives first) (core : AppleDeliveryCore)
    (failure : DeliveryFailure) : (IDeliveryTarget.failed core failure t).world.Lives first := by
  cases hreceiver : t.receiver with
  | none =>
    simp only [IDeliveryTarget.failed, hreceiver]
    exact h
  | some receiver =>
    simp only [IDeliveryTarget.failed, hreceiver]
    constructor
    · simp only [IInputReceiver.sourceFailed, worldBehind_concat, lived, stopCapture, ← h.world]
    · exact (always_concat _ _).mpr ⟨h.answered, trivial⟩

end InputSourceImplementation

namespace InputSource
open InputSourceImplementation
variable {first : ω} {s : InputSource ι (Observed ι ω)}

/-- The source lives in a world that is as its trace says. -/
def Lives (first : ω) (s : InputSource ι (Observed ι ω)) : Prop :=
  s.session.target.world.Lives first

theorem Lives.served {outcome : Bool × InputSource ι (Observed ι ω)} (h : outcome.2.Lives first)
    (monitor : MacOSInputMonitor) : (served monitor outcome).Lives first := by
  rw [InputSource.served, retryIfPending]
  split_ifs
  · exact h
  · exact h

theorem Lives.updateMonitor (h : s.Lives first) (f : MacOSInputMonitor → MacOSInputMonitor) :
    (s.updateMonitor f).Lives first := h

theorem Lives.onMainQueue (h : s.Lives first) (mainQueue : List Nat) :
    ({ s with mainQueue := mainQueue } : InputSource ι (Observed ι ω)).Lives first := h

theorem Lives.submit (h : s.Lives first) (event : CapturedEvent) :
    (s.submit event).2.Lives first := by
  have hleaves := Session.submitEvent_leaves event s.session
  have hsession : (s.submit event).2.session = s.session.submitEvent event := rfl
  rw [Lives, hsession]
  generalize s.session.submitEvent event = session at hleaves ⊢
  cases hleaves with
  | offers _ hoffers _ => exact lives_offers h hoffers
  | failed core => exact lives_failed h _ _

theorem Lives.retryPending (h : s.Lives first) : s.retryPending.2.Lives first :=
  lives_offers h (Session.drain_offers s.session).1

theorem lives_mainThread (first : ω) :
    MainThreadPreserves fun s : InputSource ι (Observed ι ω) => s.Lives first where
  reported {s} h f hf capabilities := by
    rw [Lives, (observeDevice_frame capabilities (s.updateMonitor f)).1]
    exact h
  submitted h _ event := (h.submit event).served _
  retried h _ _ := ((h.onMainQueue _).updateMonitor _).retryPending.served _
  dropped h _ _ := h

theorem Lives.note (h : s.Lives first) {event : SourceEvent ι}
    (hworld : ∀ world : ω, lived world event = world)
    (hevent : ∀ before, Answered first before event) : (s.note event).Lives first := by
  constructor
  · have hsame : (s.note event).session.target.world.trace =
        s.session.target.world.trace ++ [event] := rfl
    rw [hsame, worldBehind_concat, hworld]
    exact h.world
  · exact (always_concat _ _).mpr ⟨h.answered, hevent _⟩

/-- Every step keeps to it. -/
theorem Lives.perform (h : s.Lives first) (step : SourceStep ι) : (s.perform step).Lives first := by
  cases step with
  | start receiver appKit =>
    have hcases := start_cases receiver appKit s
    rw [InputSource.perform]
    generalize s.start receiver appKit = outcome at hcases ⊢
    cases hcases with
    | bound _ => exact h.note (fun _ => rfl) fun _ => trivial
    | started _ _ _ => exact Lives.note h (fun _ => rfl) fun _ => trivial
    | unavailable _ => exact Lives.note h (fun _ => rfl) fun _ => trivial
  | stop =>
    obtain ⟨target, hoffers, htarget, -⟩ := stop_offers s
    have hlives : target.world.Lives first :=
      lives_offers (t := s.session.target.stopCapture) h hoffers
    have hstopped : s.stop.Lives first := by
      rw [Lives, htarget]
      exact hlives
    exact hstopped.note (fun _ => rfl) fun _ => trivial
  | capture event => exact (lives_mainThread first).capture h event
  | resignActive => exact (lives_mainThread first).resignActive h
  | fire index => exact (lives_mainThread first).fire h index

theorem lives_of_create {memory : Fake.Memory} {descriptor : InputSourceDescriptor} {world : ω}
    {source : InputSource ι (Observed ι ω)}
    (h : create memory descriptor { world := world } = .ok source) : source.Lives world := by
  rw [create] at h
  split_ifs at h
  obtain rfl := Except.ok.inj h
  exact ⟨rfl, always_nil⟩

theorem run_lives (h : s.Lives first) (steps : List (SourceStep ι)) :
    (run s steps).Lives first := by
  induction steps using List.reverseRecOn with
  | nil => exact h
  | append_singleton steps step ih =>
    rw [run, List.foldl_concat]
    exact ih.perform step

end InputSource
end LightPhi.MacOS
