import LightPhi.Apple.Offers
import LightPhi.MacOS.Sessions

/-! The sample arena of the adapter. A slot is written only when the sample it holds has another
identity, and that is enough: an identity belongs to one sample. -/
namespace LightPhi.MacOS
open Base Input Apple
open Fake (IInputReceiver)
variable {ι ω : Type*}

/-- A delivery that was offered, and the batches a receiver was handed for it. -/
structure Handing where
  delivery : Delivery
  batches : List InputBatch
  deriving DecidableEq

def SourceEvent.batch? : SourceEvent ι → Option InputBatch
  | .receive _ batch _ => some batch
  | _ => none

/-- The batches the receivers of an adapter were handed. -/
def handed (t : InputSourceImplementation ι (Observed ι ω)) : List InputBatch :=
  t.world.trace.filterMap SourceEvent.batch?

/-- Those they were handed since an earlier state. -/
def handedSince (t t' : InputSourceImplementation ι (Observed ι ω)) : List InputBatch :=
  (handed t').drop (handed t).length

/-- The adapter, with what it made of each offer. -/
structure Watched (ι ω : Type*) where
  implementation : InputSourceImplementation ι (Observed ι ω)
  handings : List Handing := []

instance [IInputReceiver ι ω] : IDeliveryTarget (Watched ι ω) where
  receive core d w :=
    let (decision, implementation) := IDeliveryTarget.receive core d w.implementation
    (decision, { implementation := implementation
                 handings := w.handings ++ [⟨d, handedSince w.implementation implementation⟩] })
  failed core failure w :=
    { w with implementation := IDeliveryTarget.failed core failure w.implementation }

/-- What happens to the core and its adapter: a call to the core, or another receiver bound. -/
inductive AdapterOp (ι : Type*) where
  | core (op : CoreOp)
  | bind (receiver : Option ι)
  deriving DecidableEq

def AdapterOp.core? : AdapterOp ι → Option CoreOp
  | .core op => some op
  | .bind _ => none

/-- The calls to the core, in order. -/
def coreOps (ops : List (AdapterOp ι)) : List CoreOp := ops.filterMap AdapterOp.core?

theorem coreOps_concat_core (ops : List (AdapterOp ι)) (op : CoreOp) :
    coreOps (ops ++ [.core op]) = coreOps ops ++ [op] := List.filterMap_append ..

theorem coreOps_concat_bind (ops : List (AdapterOp ι)) (receiver : Option ι) :
    coreOps (ops ++ [.bind receiver]) = coreOps ops :=
  (List.filterMap_append ..).trans (List.append_nil _)

namespace InputSourceImplementation

/-- Every sample in the arena is one that was offered, under its own identity. -/
structure Holds (bound : Nat) (offered : List Delivery) (t : InputSourceImplementation ι ω) :
    Prop where
  length : t.samples.length = bound
  cells : ∀ slot, (t.samples.getD slot default).id.value ≠ 0 →
    ∃ d ∈ offered, t.samples.getD slot default = toSample d

theorem Holds.mono {bound : Nat} {offered offered' : List Delivery}
    {t : InputSourceImplementation ι ω} (h : t.Holds bound offered)
    (hmono : ∀ d ∈ offered, d ∈ offered') : t.Holds bound offered' :=
  ⟨h.length, fun slot hne => by
    obtain ⟨d, hd, hcell⟩ := h.cells slot hne
    exact ⟨d, hmono d hd, hcell⟩⟩

/-- What is written to a slot is read back there, and nowhere else. -/
theorem getD_set {samples : List InputSample} {slot : Nat} (h : slot < samples.length)
    (sample : InputSample) (other : Nat) :
    (samples.set slot sample).getD other default =
      if slot = other then sample else samples.getD other default := by
  simp only [List.getD_eq_getElem?_getD]
  split_ifs with hsame
  · subst hsame
    rw [List.getElem?_set_self h, Option.getD_some]
  · rw [List.getElem?_set_ne hsame]

/-- When identities are not shared, the batch is that of the delivery, and the arena goes on
holding what was offered. -/
theorem Holds.handOver {bound : Nat} {offered : List Delivery} {d : Delivery}
    {t : InputSourceImplementation ι ω} (h : t.Holds bound offered) (hslot : d.slot.toNat < bound)
    (hown : ∀ e ∈ offered, e.sample = d.sample → d.sample ≠ 0 → e = d) :
    (t.handOver d).1 = toBatch d ∧ (t.handOver d).2.Holds bound (offered ++ [d]) := by
  have hmono : t.Holds bound (offered ++ [d]) := h.mono fun e he => List.mem_append_left _ he
  by_cases hsample : d.sample = 0
  · simp only [InputSourceImplementation.handOver, toBatch, hsample, ne_eq, not_true, if_false]
    exact ⟨trivial, hmono⟩
  · have hlt : d.slot.toNat < t.samples.length := by
      rw [h.length]
      exact hslot
    simp only [InputSourceImplementation.handOver, toBatch, hsample, ne_eq, not_false_eq_true,
      if_true]
    by_cases hcached : (t.samples.getD d.slot.toNat default).id.value = d.sample
    · obtain ⟨e, he, hcell⟩ := h.cells d.slot.toNat (by rw [hcached]; exact hsample)
      have hid : e.sample = d.sample := by
        rw [hcell] at hcached
        exact hcached
      obtain rfl := hown e he hid hsample
      simp only [hcached, not_true, if_false]
      exact ⟨by rw [hcell], hmono⟩
    · simp only [hcached, not_false_eq_true, if_true, getD_set hlt]
      refine ⟨trivial, by rw [List.length_set]; exact h.length, fun slot hne => ?_⟩
      rw [getD_set hlt] at hne ⊢
      split_ifs at hne ⊢ with hsame
      · exact ⟨d, by simp, rfl⟩
      · exact hmono.cells slot hne

theorem Holds.receive [IInputReceiver ι ω] {bound : Nat} {offered : List Delivery} {d : Delivery}
    {t : InputSourceImplementation ι (Observed ι ω)} (h : t.Holds bound offered)
    (core : AppleDeliveryCore) (hslot : d.slot.toNat < bound)
    (hown : ∀ e ∈ offered, e.sample = d.sample → d.sample ≠ 0 → e = d) :
    (∀ batch ∈ handedSince t (IDeliveryTarget.receive core d t).2, batch = toBatch d) ∧
      handed (IDeliveryTarget.receive core d t).2 =
        handed t ++ handedSince t (IDeliveryTarget.receive core d t).2 ∧
      (IDeliveryTarget.receive core d t).2.Holds bound (offered ++ [d]) := by
  cases hreceiver : t.receiver with
  | none =>
    rw [receive_unbound hreceiver]
    refine ⟨?_, ?_, h.mono fun e he => List.mem_append_left _ he⟩
    · simp [handedSince]
    · simp [handedSince]
  | some receiver =>
    obtain ⟨hbatch, hholds⟩ := h.handOver hslot hown
    rw [receive_bound hreceiver, hbatch]
    refine ⟨?_, ?_, hholds.length, hholds.cells⟩
    · simp [handedSince, handed, IInputReceiver.receive, SourceEvent.batch?]
    · simp [handedSince, handed, IInputReceiver.receive, SourceEvent.batch?]

/-- A failure hands over nothing. -/
theorem handed_failed [IInputReceiver ι ω] (core : AppleDeliveryCore) (failure : DeliveryFailure)
    (t : InputSourceImplementation ι (Observed ι ω)) :
    handed (IDeliveryTarget.failed core failure t) = handed t := by
  cases hreceiver : t.receiver with
  | none => simp [IDeliveryTarget.failed, hreceiver, handed, stopCapture]
  | some receiver =>
    simp [IDeliveryTarget.failed, hreceiver, handed, stopCapture, IInputReceiver.sourceFailed,
      SourceEvent.batch?]

theorem Holds.failed [IInputReceiver ι ω] {bound : Nat} {offered : List Delivery}
    {t : InputSourceImplementation ι ω} (h : t.Holds bound offered) (core : AppleDeliveryCore)
    (failure : DeliveryFailure) : (IDeliveryTarget.failed core failure t).Holds bound offered := by
  cases hreceiver : t.receiver with
  | none =>
    simp only [IDeliveryTarget.failed, hreceiver]
    exact ⟨h.length, h.cells⟩
  | some receiver =>
    simp only [IDeliveryTarget.failed, hreceiver]
    exact ⟨h.length, h.cells⟩

end InputSourceImplementation

namespace Watched

/-- What the core may offer: slots in the ring, and no identity twice. -/
def MayOffer (bound : Nat) (trace : List CoreEvent) : Prop :=
  Always (SlotBelow bound) trace ∧ Always OffersNew trace

theorem MayOffer.before {bound : Nat} {trace : List CoreEvent} {event : CoreEvent}
    (h : MayOffer bound (trace ++ [event])) : MayOffer bound trace :=
  ⟨h.1.of_append, h.2.of_append⟩

/-- Every batch was that of the delivery offered, and the arena holds what was offered. -/
structure Faithful (bound : Nat) (r : Recorded (Watched ι ω)) : Prop where
  offered : r.target.handings.map Handing.delivery = offersOf r.trace
  batches : ∀ handing ∈ r.target.handings, handing.delivery.slot.toNat < bound ∧
    ∀ batch ∈ handing.batches, batch = toBatch handing.delivery
  handed : r.target.handings.flatMap Handing.batches = handed r.target.implementation
  holds : r.target.implementation.Holds bound (offersOf r.trace)

/-- What the core offers next to a faithful adapter is its own delivery there. -/
theorem own_of_mayOffer {bound : Nat} {trace : List CoreEvent} {mask : UInt16} {d : Delivery}
    {decision : DeliveryDecision} (h : MayOffer bound (trace ++ [.receive mask d decision])) :
    d.slot.toNat < bound ∧ ∀ e ∈ offersOf trace, e.sample = d.sample → d.sample ≠ 0 → e = d := by
  refine ⟨((always_concat _ _).mp h.1).2, fun e he hsame hne => ?_⟩
  exact eq_of_sample h.2 (by simp [he]) (by simp) hsame (hsame ▸ hne)

/-- Faithful as long as the core keeps to what it may offer. -/
def Conforms (bound : Nat) (r : Recorded (Watched ι ω)) : Prop :=
  MayOffer bound r.trace → Faithful bound r

/-- An event that offers nothing. -/
theorem Conforms.noted {bound : Nat} {r r' : Recorded (Watched ι ω)} {event : CoreEvent}
    (h : Conforms bound r) (htrace : r'.trace = r.trace ++ [event])
    (hoffers : offersOf [event] = []) (hhandings : r'.target.handings = r.target.handings)
    (hhanded : MacOS.handed r'.target.implementation = MacOS.handed r.target.implementation)
    (hholds : ∀ offered, r.target.implementation.Holds bound offered →
      r'.target.implementation.Holds bound offered) : Conforms bound r' := by
  intro hmay
  rw [htrace] at hmay
  obtain ⟨hoffered, hbatches, hall, hheld⟩ := h hmay.before
  have hsame : offersOf r'.trace = offersOf r.trace := by
    rw [htrace, offersOf_append, hoffers, List.append_nil]
  exact ⟨by rw [hhandings, hsame, hoffered], by rwa [hhandings], by rw [hhandings, hall, hhanded],
    hsame ▸ hholds _ hheld⟩

theorem Conforms.record {s : Session (Recorded (Watched ι ω))} (h : Conforms bound s.target)
    {event : CoreEvent} (hoffers : offersOf [event] = []) :
    Conforms bound (s.record event).target :=
  Conforms.noted h rfl hoffers rfl rfl fun _ hholds => hholds

section Calls
variable [IInputReceiver ι ω] {bound : Nat}

/-- One more offer, and what came of it. -/
theorem Conforms.receive {r : Recorded (Watched ι ω)} (h : Conforms bound r)
    (core : AppleDeliveryCore) (d : Delivery) :
    Conforms bound (IDeliveryTarget.receive core d r).2 := by
  intro hmay
  obtain ⟨hoffered, hbatches, hall, hholds⟩ := h hmay.before
  obtain ⟨hslot, hown⟩ := own_of_mayOffer hmay
  obtain ⟨hbatch, hmore, hheld⟩ := hholds.receive core hslot hown
  refine ⟨?_, fun handing hmem => ?_, ?_, ?_⟩
  · simp [IDeliveryTarget.receive, hoffered]
  · cases List.mem_append.mp hmem with
    | inl hold => exact hbatches handing hold
    | inr hnew =>
      rw [List.mem_singleton.mp hnew]
      exact ⟨hslot, hbatch⟩
  · simp only [IDeliveryTarget.receive] at hmore ⊢
    rw [List.flatMap_append, hall, hmore]
    simp
  · simpa [IDeliveryTarget.receive] using hheld

theorem Conforms.offers {r r' : Recorded (Watched ι ω)} (h : Conforms bound r)
    (hoffers : Offers r r') : Conforms bound r' :=
  hoffers.preserves (Conforms bound) (fun core d _ hr => hr.receive core d) h

theorem Conforms.failed {r : Recorded (Watched ι ω)} (h : Conforms bound r)
    (core : AppleDeliveryCore) (failure : DeliveryFailure) :
    Conforms bound (IDeliveryTarget.failed core failure r) :=
  Conforms.noted h rfl rfl rfl (InputSourceImplementation.handed_failed core failure _)
    fun _ hholds => hholds.failed core failure

theorem Conforms.perform {s : Session (Recorded (Watched ι ω))} (h : Conforms bound s.target)
    (op : CoreOp) : Conforms bound (s.perform op).target := by
  have hcalled : Conforms bound (s.record (.called op)).target := h.record rfl
  cases op with
  | start => exact hcalled
  | submit event =>
    have hleaves := Session.submitEvent_leaves event (s.record (.called (.submit event)))
    rw [Session.perform, Session.submit]
    generalize Session.submitEvent event (s.record (.called (.submit event))) = s' at hleaves ⊢
    cases hleaves with
    | offers _ hoffers _ => exact hcalled.offers hoffers
    | failed core => exact hcalled.failed core.halt .Overflow
  | retryPending => exact hcalled.offers (Session.drain_offers _).1
  | stop => exact (hcalled.offers (Session.stop_offers _).1).record rfl

/-- One call to the core, or another receiver. -/
def step (s : Session (Recorded (Watched ι ω))) : AdapterOp ι → Session (Recorded (Watched ι ω))
  | .core op => s.perform op
  | .bind receiver =>
    let implementation := { s.target.target.implementation with receiver := receiver }
    { s with target := { s.target with
      target := { s.target.target with implementation := implementation } } }

/-- Any sequence of calls to the core of a source, from the state Create leaves. -/
def run (source : InputSource ι (Observed ι ω)) (ops : List (AdapterOp ι)) :
    Session (Recorded (Watched ι ω)) :=
  ops.foldl step
    { core := source.session.core
      target := { target := { implementation := source.session.target } } }

/-- The run of the core is one of the queue model, and the adapter has been faithful. -/
structure Follows (bound : Nat) (ops : List (AdapterOp ι)) (s : Session (Recorded (Watched ι ω))) :
    Prop where
  reaches : QueueModel.Reaches QueueModel.FewEvents { capacity := bound } s.target.trace
    s.core.model
  calls : callsOf s.target.trace = coreOps ops
  wellFormed : s.core.WellFormed
  conforms : Conforms bound s.target

theorem Follows.step {ops : List (AdapterOp ι)} {s : Session (Recorded (Watched ι ω))}
    (h : Follows bound ops s) (op : AdapterOp ι)
    (hfew : (submittedBy (coreOps (ops ++ [op]))).length < 2 ^ 64) :
    Follows bound (ops ++ [op]) (step s op) := by
  cases op with
  | core op =>
    obtain ⟨events, hcall, htrace, hwf⟩ := Session.perform_refines h.wellFormed op
    have hevents : eventsIn s.target.trace = submittedBy (coreOps ops) :=
      congrArg submittedBy h.calls
    have hallowed : QueueModel.FewEvents s.target.trace s.core.model op := by
      cases op with
      | submit event =>
        rw [QueueModel.FewEvents, hevents]
        simpa [coreOps_concat_core, submittedBy, CoreOp.submitted?] using hfew
      | start | retryPending | stop => trivial
    refine ⟨?_, ?_, hwf, h.conforms.perform op⟩
    · rw [Watched.step, htrace]
      exact .call h.reaches hallowed hcall
    · rw [Watched.step, htrace, callsOf_append, h.calls, hcall.callsOf_eq, coreOps_concat_core]
  | bind receiver =>
    refine ⟨h.reaches, h.calls.trans (coreOps_concat_bind ops receiver).symm, h.wellFormed, ?_⟩
    intro hmay
    obtain ⟨hoffered, hbatches, hall, hholds⟩ := h.conforms hmay
    exact ⟨hoffered, hbatches, hall, hholds.length, hholds.cells⟩

theorem submittedBy_coreOps_concat (ops : List (AdapterOp ι)) (op : AdapterOp ι) :
    (submittedBy (coreOps ops)).length ≤ (submittedBy (coreOps (ops ++ [op]))).length := by
  simp [submittedBy, coreOps]

/-- What Create leaves: an arena of unwritten samples, and a core that has seen nothing. -/
theorem follows_of_create {memory : Fake.Memory} {descriptor : InputSourceDescriptor} {world : ω}
    {source : InputSource ι (Observed ι ω)}
    (h : InputSource.create memory descriptor { world := world } = .ok source) :
    0 < descriptor.maximumQueuedBatches.toNat ∧
      Follows descriptor.maximumQueuedBatches.toNat [] (run source []) := by
  rw [InputSource.create] at h
  split_ifs at h with hdescriptor _ _
  obtain rfl := Except.ok.inj h
  simp only [Bool.or_eq_true, beq_iff_eq, decide_eq_true_eq, not_or] at hdescriptor
  obtain ⟨hne, hle⟩ := hdescriptor
  have hpos : 0 < descriptor.maximumQueuedBatches := UInt32.pos_iff_ne_zero.mpr hne
  have hbound : descriptor.maximumQueuedBatches.toNat ≤ 2 ^ 31 := by
    have hmaximum := UInt32.le_iff_toNat_le.mp (UInt32.not_lt.mp hle)
    exact hmaximum.trans (by decide)
  refine ⟨UInt32.lt_iff_toNat_lt.mp hpos, .init, rfl,
    AppleDeliveryCore.WellFormed.create hpos hbound, fun _ => ⟨rfl, by simp [run], rfl, ?_⟩⟩
  refine ⟨by simp [run, Session.create], fun slot hwritten => absurd ?_ hwritten⟩
  simp only [run, List.foldl_nil, Session.create, List.getD_eq_getElem?_getD,
    List.getElem?_replicate]
  split_ifs
  · rfl
  · rfl

theorem follows_run {source : InputSource ι (Observed ι ω)}
    (h : Follows bound [] (run source [])) (ops : List (AdapterOp ι))
    (hfew : (submittedBy (coreOps ops)).length < 2 ^ 64) : Follows bound ops (run source ops) := by
  induction ops using List.reverseRecOn with
  | nil => exact h
  | append_singleton ops op ih =>
    rw [run, List.foldl_concat]
    exact (ih ((submittedBy_coreOps_concat ops op).trans_lt hfew)).step op hfew

/-- Whatever the calls to the core, the bindings and the answers, fewer than 2^64 events given:
each batch is that of the delivery offered, in a slot of the ring, no other batch is handed over,
every offer has its entry, and a refused delivery is the next one offered. -/
theorem hands_over_offered {memory : Fake.Memory} {descriptor : InputSourceDescriptor} {world : ω}
    {source : InputSource ι (Observed ι ω)}
    (h : InputSource.create memory descriptor { world := world } = .ok source)
    (ops : List (AdapterOp ι)) (hfew : (submittedBy (coreOps ops)).length < 2 ^ 64) :
    (∀ handing ∈ (run source ops).target.target.handings,
        handing.delivery.slot.toNat < descriptor.maximumQueuedBatches.toNat ∧
          ∀ batch ∈ handing.batches, batch = toBatch handing.delivery) ∧
      (run source ops).target.target.handings.flatMap Handing.batches =
        handed (run source ops).target.target.implementation ∧
      (run source ops).target.target.handings.map Handing.delivery =
        offersOf (run source ops).target.trace ∧
      Always RetriesRefused (run source ops).target.trace := by
  obtain ⟨hpos, hfirst⟩ := follows_of_create h
  obtain ⟨hreach, -, -, hconforms⟩ := follows_run hfirst ops hfew
  have hnew := QueueModel.offersNew_of_reaches hreach
    ⟨Nat.zero_le _, Nat.zero_le _, Nat.zero_le _, Nat.zero_le _, by simp, le_rfl⟩ rfl
  have hinRing := hreach.invariant
    ((QueueModel.inRing_calls hpos).weaken fun _ _ _ _ => trivial).preserves
    ⟨rfl, by simp, always_nil⟩
  have hretrying := hreach.invariant
    (QueueModel.retrying_calls.weaken fun _ _ _ _ => trivial).preserves
    ⟨QueueModel.refusedAtHead_of_unrefused _ rfl, always_nil⟩
  have hfaithful := hconforms ⟨hinRing.offers, hnew⟩
  exact ⟨hfaithful.batches, hfaithful.handed, hfaithful.offered, hretrying.offers⟩

/-- The slot is written again once the first contact left it, and the update is refused once. -/
def slotReused : List (AdapterOp Unit) :=
  [.bind (some ()), .core .start, .core (.submit (plainEvent .Begin)),
   .core (.submit (plainEvent .Update)), .core .retryPending]

theorem hands_over_offered_reused :
    (∀ handing ∈ (run InputSource.oneSlot slotReused).target.target.handings,
        handing.delivery.slot.toNat < 1 ∧
          ∀ batch ∈ handing.batches, batch = toBatch handing.delivery) ∧
      (run InputSource.oneSlot slotReused).target.target.handings.flatMap Handing.batches =
        handed (run InputSource.oneSlot slotReused).target.target.implementation ∧
      (run InputSource.oneSlot slotReused).target.target.handings.map Handing.delivery =
        offersOf (run InputSource.oneSlot slotReused).target.trace ∧
      Always RetriesRefused (run InputSource.oneSlot slotReused).target.trace :=
  hands_over_offered InputSource.oneSlot_created slotReused (by decide)

end Calls
end Watched
end LightPhi.MacOS
