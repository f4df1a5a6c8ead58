import LightPhi.Fake.Refinement

/-! Everything the fake source dispatches obeys the public delivery rules, and Stop closes the
contact the receiver has seen open, as long as its ordinals can grow. -/
namespace LightPhi.Fake
open Base Input
variable {ι : Type*} [DecidableEq ι]

/-- The state of one receiver: it moves on with what it accepts, and forgets the contact when it
rejects, when the source fails, and when Stop has returned. -/
def observe (C : InputSourceCapabilities) (i : ι) (state : DeliveryState) :
    FakeEvent ι → DeliveryState
  | .receive j batch .Accepted =>
    if j = i then
      match validateBatch batch C state with
      | .ok next => next
      | .error _ => state
    else state
  | .receive _ _ .Busy | .called _ => state
  | .receive j _ .Rejected => if j = i then {} else state
  | .sourceFailed j _ => if j = i then {} else state
  | .stopped bound => if bound = some i then {} else state

def observer (C : InputSourceCapabilities) (i : ι) (trace : List (FakeEvent ι)) : DeliveryState :=
  trace.foldl (observe C i) {}

/-- What the receiver the source is bound to has seen. -/
def seen (C : InputSourceCapabilities) (trace : List (FakeEvent ι)) : Option ι → DeliveryState
  | some i => observer C i trace
  | none => {}

/-- Whether the call being served is DispatchNext. -/
def dispatching (trace : List (FakeEvent ι)) : Bool :=
  (trace.filterMap FakeEvent.call?).getLast? == some .dispatchNext

/-- What DispatchNext offers passes the batch check from the state of the receiver. -/
def OffersValid (C : InputSourceCapabilities) (before : List (FakeEvent ι)) : FakeEvent ι → Prop
  | .receive i batch _ => dispatching before →
      (validateBatch batch C (observer C i before)).isOk
  | _ => True

@[simp] theorem observer_append (C : InputSourceCapabilities) (i : ι)
    (trace events : List (FakeEvent ι)) :
    observer C i (trace ++ events) = events.foldl (observe C i) (observer C i trace) := by
  simp [observer]

/-- The contact and the ordinal the source keeps are those of the open contact. -/
def Delivered (state : DeliveryState) (contact : ContactId) (ordinal : UInt64) : Prop :=
  if state.contactOpen then
    contact = state.contact ∧ contact.value ≠ 0 ∧ ordinal = state.lastBatchOrdinal
  else contact.value = 0

/-- The receiver would accept everything that waits, and then stand where the script does. -/
structure InStep (C : InputSourceCapabilities) (trace : List (FakeEvent ι)) (q : ScriptQueue ι) :
    Prop where
  capabilities : q.capabilities = C
  others : ∀ i, q.receiver ≠ some i → observer C i trace = {}
  pending : validateStream C (seen C trace q.receiver) q.pending = .ok q.script
  delivered : Delivered (seen C trace q.receiver) q.deliveredContact q.deliveredBatchOrdinal
  offers : Always (OffersValid C) trace

theorem delivered_closed (ordinal : UInt64) : Delivered {} {} ordinal := by
  simp [Delivered]

theorem enterContact_opens {batch : InputBatch} {state entered : DeliveryState}
    (h : enterContact batch state = .ok entered) :
    entered.contactOpen ∧ entered.contact = batch.contact := by
  cases (enterContact_eq_ok_iff _ _ _).mp h with
  | inl hbegin =>
    obtain ⟨-, -, rfl⟩ := hbegin
    exact ⟨rfl, rfl⟩
  | inr hgoesOn =>
    obtain ⟨-, hopen, hcontact, -, rfl⟩ := hgoesOn
    exact ⟨hopen, hcontact⟩

/-- What RecordDelivered keeps of an accepted batch. -/
theorem delivered_of_accepted {C : InputSourceCapabilities} {batch : InputBatch}
    {state next : DeliveryState} (h : validateBatch batch C state = .ok next) :
    Delivered next (if batch.phase.closes then {} else batch.contact) batch.batchOrdinal := by
  obtain ⟨henv, entered, henter, loop, -, rfl⟩ := (validateBatch_eq_ok_iff _ _ _ _).mp h
  obtain ⟨hopen, hcontact⟩ := enterContact_opens henter
  by_cases hcloses : batch.phase = .End ∨ batch.phase = .Cancel
  · rw [if_pos ((closes_iff _).mpr hcloses), leaveBatch, if_pos hcloses]
    exact delivered_closed _
  · have hphase : batch.phase.closes = false := by
      rw [← Bool.not_eq_true, closes_iff]
      exact hcloses
    simp [Delivered, leaveBatch, hphase, hcloses, hopen, hcontact, henv.contact]

section InStep
variable {C : InputSourceCapabilities} {trace : List (FakeEvent ι)} {q q' : ScriptQueue ι}
  {i : ι} {batch : InputBatch} {rest : List InputBatch}

/-- A call after which nothing waits and no receiver has a contact open. -/
theorem InStep.of_reset {events : List (FakeEvent ι)} (h : InStep C trace q)
    (hclosed : ∀ j, observer C j (trace ++ events) = {})
    (hoffers : Always (OffersValid C) (trace ++ events)) :
    InStep C (trace ++ events) q.reset :=
  ⟨h.capabilities, fun j _ => hclosed j, rfl, delivered_closed _, hoffers⟩

/-- A call the receivers do not see, and that leaves what they have seen alone. -/
theorem InStep.noted (h : InStep C trace q) (op : FakeOp ι) (hcapabilities : q'.capabilities = C)
    (hreceiver : q'.receiver = q.receiver)
    (hpending : validateStream C (seen C trace q.receiver) q'.pending = .ok q'.script)
    (hcontact : q'.deliveredContact = q.deliveredContact)
    (hordinal : q'.deliveredBatchOrdinal = q.deliveredBatchOrdinal) :
    InStep C (trace ++ [.called op]) q' := by
  have hseen : seen C (trace ++ [.called op]) q.receiver = seen C trace q.receiver := by
    cases q.receiver <;> simp [seen, observe]
  refine ⟨hcapabilities, fun j hj => ?_, ?_, ?_, (always_concat _ _).mpr ⟨h.offers, trivial⟩⟩
  · rw [hreceiver] at hj
    simpa [observe] using h.others j hj
  · rw [hreceiver, hseen]
    exact hpending
  · rw [hreceiver, hseen, hcontact, hordinal]
    exact h.delivered

/-- The batch at the head is accepted, and the rest from the state it leaves. -/
theorem InStep.head (h : InStep C trace q) (hr : q.receiver = some i)
    (hq : q.pending = batch :: rest) :
    ∃ next, validateBatch batch C (observer C i trace) = .ok next ∧
      validateStream C next rest = .ok q.script := by
  have hpending := h.pending
  rw [hr, hq, validateStream, List.foldlM_cons, bind_eq_ok] at hpending
  exact hpending

theorem InStep.offers_concat (h : InStep C trace q) (hr : q.receiver = some i)
    (hq : q.pending = batch :: rest) (result : DeliveryResult) :
    Always (OffersValid C) (trace ++ [.called .dispatchNext, .receive i batch result]) := by
  obtain ⟨next, hnext, -⟩ := h.head hr hq
  rw [List.append_cons]
  refine (always_concat _ _).mpr ⟨(always_concat _ _).mpr ⟨h.offers, trivial⟩, fun _ => ?_⟩
  simp [observe, hnext, Except.isOk, Except.toBool]

end InStep

theorem inStep_preserves (C : InputSourceCapabilities) :
    Base.Preserves ScriptQueue.Calls (fun _ _ _ => True) (InStep (ι := ι) C) := by
  rintro trace q op events q' - hc h
  cases hc with
  | bound | refused | idle => exact h.noted _ h.capabilities rfl h.pending rfl rfl
  | failNext => exact h.noted _ h.capabilities rfl h.pending rfl rfl
  | @started receiver hfree =>
    have hclosed := h.others receiver (by simp [hfree])
    have hseen : seen C (trace ++ [.called (.start receiver)]) (some receiver) =
        seen C trace q.receiver := by
      simp [seen, observe, hfree, hclosed]
    refine ⟨h.capabilities, fun j _ => ?_, ?_, ?_, (always_concat _ _).mpr ⟨h.offers, trivial⟩⟩
    · simpa [observe] using h.others j (by simp [hfree])
    · rw [hseen]
      exact h.pending
    · rw [hseen]
      exact h.delivered
  | @cancelled receiver result hr hopen =>
    refine h.of_reset (fun j => ?_) ?_
    · by_cases hj : receiver = j
      · simp [observe, hr, hj]
      · have hother := h.others j (by simp [hr, hj])
        cases result <;> simp [observe, hr, hj, hother]
    · rw [List.append_cons, List.append_cons (trace ++ _)]
      refine (always_concat _ _).mpr ⟨(always_concat _ _).mpr
        ⟨(always_concat _ _).mpr ⟨h.offers, trivial⟩, fun hdispatching => ?_⟩, trivial⟩
      simp [dispatching, FakeEvent.call?] at hdispatching
  | closed hclosed =>
    refine h.of_reset (fun j => ?_) (h.offers.append (by simp [OffersValid]))
    by_cases hj : q.receiver = some j
    · simp [observe, hj]
    · simp [observe, hj, h.others j hj]
  | queued hroom hvalid =>
    rw [h.capabilities] at hvalid
    refine h.noted _ h.capabilities rfl ?_ rfl rfl
    exact (foldlM_concat_eq_ok _ _ _ _ _).mpr ⟨_, h.pending, hvalid⟩
  | @failed receiver hr hfail =>
    refine h.of_reset (fun j => ?_) (h.offers.append (by simp [OffersValid]))
    by_cases hj : receiver = j
    · simp [observe, hj]
    · simp [observe, hj, h.others j (by simp [hr, hj])]
  | @accepted receiver batch rest hr hfail hq =>
    obtain ⟨next, hnext, hrest⟩ := h.head hr hq
    have hseen : seen C (trace ++ [.called .dispatchNext, .receive receiver batch .Accepted])
        (some receiver) = next := by
      simp [seen, observe, hnext]
    refine ⟨h.capabilities, fun j hj => ?_, ?_, ?_, h.offers_concat hr hq _⟩
    · have hne : receiver ≠ j := fun he => hj (by rw [ScriptQueue.delivered, hr, he])
      simpa [observe, hne] using h.others j (by simp [hr, hne])
    · rw [ScriptQueue.delivered, hr, hseen]
      exact hrest
    · rw [ScriptQueue.delivered, hr, hseen]
      exact delivered_of_accepted hnext
  | @busy receiver batch rest hr hfail hq =>
    have hseen : seen C (trace ++ [.called .dispatchNext, .receive receiver batch .Busy])
        q.receiver = seen C trace q.receiver := by
      simp [seen, observe, hr]
    refine ⟨h.capabilities, fun j hj => ?_, ?_, ?_, h.offers_concat hr hq _⟩
    · simpa [observe] using h.others j hj
    · rw [hseen]
      exact h.pending
    · rw [hseen]
      exact h.delivered
  | @rejected receiver batch rest hr hfail hq =>
    have hseen : seen C (trace ++ [.called .dispatchNext, .receive receiver batch .Rejected])
        (some receiver) = {} := by
      simp [seen, observe]
    refine ⟨h.capabilities, fun j hj => ?_, ?_, ?_, h.offers_concat hr hq _⟩
    · have hne : receiver ≠ j := fun he => hj (by rw [ScriptQueue.abandon, hr, he])
      simpa [observe, hne] using h.others j (by simp [hr, hne])
    · rw [ScriptQueue.abandon, hr, hseen]
      rfl
    · rw [ScriptQueue.abandon, hr, hseen]
      exact delivered_closed _

/-- One cancellation of the open contact, to the receiver that has it open, which it may take. -/
def ClosesContact (C : InputSourceCapabilities) (bound : Option ι) (state : DeliveryState) :
    List (ι × InputBatch) → Prop
  | [(i, batch)] => bound = some i ∧ batch.phase = .Cancel ∧ batch.samples = [] ∧
      batch.contact = state.contact ∧ (validateBatch batch C state).isOk
  | _ => False

def ClosesSeen (C : InputSourceCapabilities) (bound : Option ι) (state : DeliveryState)
    (offers : List (ι × InputBatch)) : Prop :=
  if state.contactOpen then ClosesContact C bound state offers else offers = []

instance (C : InputSourceCapabilities) (bound : Option ι) (state : DeliveryState) :
    ∀ offers, Decidable (ClosesContact C bound state offers)
  | [(i, batch)] => inferInstanceAs (Decidable (bound = some i ∧ batch.phase = .Cancel ∧
      batch.samples = [] ∧ batch.contact = state.contact ∧ (validateBatch batch C state).isOk))
  | [] | _ :: _ :: _ => inferInstanceAs (Decidable False)

instance (C : InputSourceCapabilities) (bound : Option ι) (state : DeliveryState)
    (offers : List (ι × InputBatch)) : Decidable (ClosesSeen C bound state offers) :=
  inferInstanceAs (Decidable (if state.contactOpen then ClosesContact C bound state offers
    else offers = []))

/-- A cancellation of the open contact with the next ordinal passes unless that ordinal wraps. -/
theorem cancel_isOk_iff {C : InputSourceCapabilities} {state : DeliveryState} {batch : InputBatch}
    (hopen : state.contactOpen) (hcontact : batch.contact = state.contact)
    (hvalue : batch.contact.value ≠ 0) (hphase : batch.phase = .Cancel)
    (hsamples : batch.samples = []) (hordinal : batch.batchOrdinal = state.lastBatchOrdinal + 1) :
    (validateBatch batch C state).isOk ↔ state.lastBatchOrdinal ≠ 0xFFFFFFFFFFFFFFFF := by
  rw [← Word.lt_add_one_iff, ← hordinal]
  constructor
  · intro h
    obtain ⟨next, hnext⟩ := exists_of_isOk h
    obtain ⟨-, entered, henter, -⟩ := (validateBatch_eq_ok_iff _ _ _ _).mp hnext
    simp only [enterContact_eq_ok_iff, hphase, reduceCtorEq, false_and, false_or] at henter
    exact henter.2.2.2.1
  · intro h
    have henv : EnvelopeRule C batch := ⟨hvalue, by simp [hphase], by simp [hsamples],
      by simp [hphase], fun _ => hsamples⟩
    have henter : enterContact batch state = .ok state :=
      (enterContact_eq_ok_iff _ _ _).mpr (Or.inr ⟨by simp [hphase], hopen, hcontact.symm, h, rfl⟩)
    have hvalid : validateBatch batch C state = .ok {} :=
      (validateBatch_eq_ok_iff _ _ _ _).mpr ⟨henv, state, henter, startScan state,
        by simp [validateSamples, validateSamplesFrom, hsamples], by simp [leaveBatch, hphase]⟩
    rw [hvalid]
    rfl

/-- Stop from where source and receiver are in step. -/
theorem closesSeen_stop_iff {C : InputSourceCapabilities} {trace events : List (FakeEvent ι)}
    {q q' : ScriptQueue ι} (h : InStep C trace q) (hc : ScriptQueue.Calls q .stop events q') :
    ClosesSeen C q.receiver (seen C trace q.receiver) (offersOf events) ↔
      ¬ ((seen C trace q.receiver).contactOpen ∧
        (seen C trace q.receiver).lastBatchOrdinal = 0xFFFFFFFFFFFFFFFF) := by
  have hdelivered := h.delivered
  cases hc with
  | @cancelled receiver result hr hvalue =>
    have hopen : (seen C trace q.receiver).contactOpen := by
      by_contra hclosed
      rw [Delivered, if_neg hclosed] at hdelivered
      exact hvalue hdelivered
    rw [Delivered, if_pos hopen] at hdelivered
    obtain ⟨hcontact, -, hordinal⟩ := hdelivered
    have hvalid : (validateBatch q.cancelBatch C (seen C trace q.receiver)).isOk ↔
        (seen C trace q.receiver).lastBatchOrdinal ≠ 0xFFFFFFFFFFFFFFFF :=
      cancel_isOk_iff hopen hcontact hvalue rfl rfl (by rw [← hordinal]; rfl)
    have hoffers : offersOf [.called .stop, .receive receiver q.cancelBatch result,
        .stopped q.receiver] = [(receiver, q.cancelBatch)] := rfl
    rw [ClosesSeen, if_pos hopen, hoffers, ClosesContact, hvalid]
    exact ⟨fun hcloses hlast => hcloses.2.2.2.2 hlast.2,
      fun hlast => ⟨hr, rfl, rfl, hcontact, fun he => hlast ⟨hopen, he⟩⟩⟩
  | closed hclosed =>
    have hopen : ¬ (seen C trace q.receiver).contactOpen := by
      intro hopen
      have hbound : q.receiver ≠ none := by
        intro hnone
        rw [hnone] at hopen
        exact absurd hopen (by simp [seen])
      rw [Delivered, if_pos hopen] at hdelivered
      exact hdelivered.2.1 (hclosed hbound)
    have hoffers : offersOf [.called .stop, .stopped q.receiver] = [] := rfl
    rw [ClosesSeen, if_neg hopen, hoffers]
    exact ⟨fun _ hlast => hopen hlast.1, fun _ => rfl⟩

namespace Session
variable {ω : Type*} [IInputReceiver ι ω]

/-- In every run of a source that Create returned, the source and its receivers are in step. -/
theorem run_inStep {memory : Memory} {descriptor : FakeInputSourceDescriptor}
    {source : FakeInputSource ι} (h : FakeInputSource.create memory descriptor = .ok source)
    (world : ω) (ops : List (FakeOp ι)) :
    InStep source.capabilities (run source world ops).world.trace
      (run source world ops).source.model := by
  obtain ⟨-, hmodel⟩ := FakeInputSource.WellFormed.of_create h
  have hcapabilities : source.capabilities = descriptor.capabilities :=
    congrArg ScriptQueue.capabilities hmodel
  obtain ⟨hreach, -⟩ := run_refines h world ops
  exact hcapabilities ▸ hreach.invariant (inStep_preserves _)
    ⟨rfl, fun _ _ => rfl, rfl, delivered_closed _, always_nil⟩

/-- Whatever a script holds and whatever the receivers answer, every batch that DispatchNext
offers passes the batch check from the state of its receiver. -/
theorem dispatches_valid {memory : Memory} {descriptor : FakeInputSourceDescriptor}
    {source : FakeInputSource ι} (h : FakeInputSource.create memory descriptor = .ok source)
    (world : ω) (ops : List (FakeOp ι)) :
    Always (OffersValid source.capabilities) (run source world ops).world.trace :=
  (run_inStep h world ops).offers

/-- Room for one batch of one sample. -/
def smallDescriptor : FakeInputSourceDescriptor :=
  { capabilities := { maximumBatchSamples := 1 }, maximumQueuedBatches := 1 }

theorem smallDescriptor_created :
    FakeInputSource.create (ι := Unit) {} smallDescriptor = .ok (.allocate smallDescriptor) := by
  rfl

/-- A contact that begins with the given ordinal. -/
def oneContact (ordinal : UInt64) : List (FakeOp Unit) :=
  [.start (), .enqueue { contact := ⟨1⟩, batchOrdinal := ordinal,
                         samples := [{ id := ⟨1⟩, sequence := 1 }] }, .dispatchNext]

theorem dispatches_valid_retried :
    Always (OffersValid smallDescriptor.capabilities) (run (.allocate smallDescriptor)
      (Answers.mk (fun offer => if offer = 0 then .Busy else .Accepted) 0)
      (oneContact 1 ++ [.dispatchNext, .stop])).world.trace :=
  dispatches_valid smallDescriptor_created _ _

/-- What Stop offers closes exactly the contact that is open to the receiver it is bound to. -/
def StopClosesSeen (s : Session ι (Recorded ι ω)) : Prop :=
  ClosesSeen s.source.capabilities s.source.receiver
    (seen s.source.capabilities s.world.trace s.source.receiver)
    (offersOf ((s.perform .stop).world.trace.drop s.world.trace.length))

instance (s : Session ι (Recorded ι ω)) : Decidable (StopClosesSeen s) :=
  inferInstanceAs (Decidable (ClosesSeen _ _ _ _))

/-- The receiver has a contact open, and the last ordinal it accepted there is the last there is. -/
def SeenLastOrdinal (s : Session ι (Recorded ι ω)) : Prop :=
  let state := seen s.source.capabilities s.world.trace s.source.receiver
  state.contactOpen ∧ state.lastBatchOrdinal = 0xFFFFFFFFFFFFFFFF

/-- In every state a run reaches, Stop closes exactly the contact the receiver has seen open, with
a delivery it may take, if and only if the ordinals of that contact are not used up. -/
theorem stop_cancels_seen_iff {memory : Memory} {descriptor : FakeInputSourceDescriptor}
    {source : FakeInputSource ι} (h : FakeInputSource.create memory descriptor = .ok source)
    (world : ω) (ops : List (FakeOp ι)) :
    StopClosesSeen (run source world ops) ↔ ¬ SeenLastOrdinal (run source world ops) := by
  have hinStep := run_inStep h world ops
  obtain ⟨-, hwf⟩ := run_refines h world ops
  obtain ⟨events, hcall, htrace, -⟩ := perform_refines hwf .stop
  have hcapabilities : (run source world ops).source.capabilities = source.capabilities :=
    hinStep.capabilities
  rw [StopClosesSeen, SeenLastOrdinal, htrace, List.drop_left, hcapabilities]
  exact closesSeen_stop_iff hinStep hcall

theorem stop_cancels_seen_once :
    StopClosesSeen (run (.allocate smallDescriptor) (Answers.mk (fun _ => .Accepted) 0)
        (oneContact 1)) ↔
      ¬ SeenLastOrdinal (run (.allocate smallDescriptor) (Answers.mk (fun _ => .Accepted) 0)
        (oneContact 1)) :=
  stop_cancels_seen_iff smallDescriptor_created _ _

/-- Behind the last ordinal the cancellation comes with ordinal zero, which the rules refuse. -/
theorem stop_cancel_refused :
    ¬ StopClosesSeen (run (.allocate smallDescriptor) (Answers.mk (fun _ => .Accepted) 0)
      (oneContact 0xFFFFFFFFFFFFFFFF)) := by
  decide +kernel

end Session
end LightPhi.Fake
