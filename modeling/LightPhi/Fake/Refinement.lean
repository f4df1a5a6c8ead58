import LightPhi.Base.Checked
import LightPhi.Fake.ScriptQueue
import LightPhi.Input.DeliveryHistory

/-! The fake source refines the list of waiting batches: its ring is a queue, and the samples of
every waiting batch lie untouched in the piece of its slot. -/
namespace LightPhi.Fake
open Base Input

/-- A world in which the calls to the receivers are written down. -/
structure Recorded (ι ω : Type*) where
  world : ω
  trace : List (FakeEvent ι) := []

instance {ι ω : Type*} [IInputReceiver ι ω] : IInputReceiver ι (Recorded ι ω) where
  receive receiver batch recorded :=
    let (result, world) := IInputReceiver.receive receiver batch recorded.world
    (result, { world := world, trace := recorded.trace ++ [.receive receiver batch result] })
  sourceFailed receiver error recorded :=
    { world := IInputReceiver.sourceFailed receiver error recorded.world,
      trace := recorded.trace ++ [.sourceFailed receiver error] }

/-- A world in which each offer is answered by its number. -/
structure Answers where
  answer : Nat → DeliveryResult
  offers : Nat := 0

instance {ι : Type*} : IInputReceiver ι Answers where
  receive _ _ answers :=
    (answers.answer answers.offers, { answers with offers := answers.offers + 1 })
  sourceFailed _ _ answers := answers

namespace Session
variable {ι ω : Type*}

def record (event : FakeEvent ι) (s : Session ι (Recorded ι ω)) : Session ι (Recorded ι ω) :=
  { s with world := { s.world with trace := s.world.trace ++ [event] } }

@[simp] theorem record_source (event : FakeEvent ι) (s : Session ι (Recorded ι ω)) :
    (s.record event).source = s.source := rfl

@[simp] theorem record_trace (event : FakeEvent ι) (s : Session ι (Recorded ι ω)) :
    (s.record event).world.trace = s.world.trace ++ [event] := rfl

variable [IInputReceiver ι ω]

/-- One call to the source, written down. -/
def perform (s : Session ι (Recorded ι ω)) (op : FakeOp ι) : Session ι (Recorded ι ω) :=
  let s := s.record (.called op)
  match op with
  | .start receiver => (s.start receiver).2
  | .stop => s.stop.record (.stopped s.source.receiver)
  | .enqueue batch =>
    match s.source.enqueue batch with
    | .ok source => { s with source := source }
    | .error _ => s
  | .failNext => { s with source := s.source.setFailNext }
  | .dispatchNext => s.dispatchNext.2

/-- Any sequence of calls to a source. -/
def run (source : FakeInputSource ι) (world : ω) (ops : List (FakeOp ι)) :
    Session ι (Recorded ι ω) :=
  ops.foldl perform { source := source, world := { world := world } }

end Session

namespace FakeInputSource
variable {ι : Type*}

/-- The batches that wait, oldest first. -/
def batches (s : FakeInputSource ι) : List InputBatch :=
  (RingBuffer.contents s.slots s.queueHead.toNat s.queueSize.toNat).map
    (readBatch s.sampleStorage)

def model (s : FakeInputSource ι) : ScriptQueue ι :=
  { capabilities := s.capabilities
    capacity := s.queueCapacity.toNat
    pending := s.batches
    receiver := s.receiver
    failNext := s.failNext
    script := s.script
    deliveredContact := s.deliveredContact
    deliveredBatchOrdinal := s.deliveredBatchOrdinal }

/-- The number of samples each slot has room for. -/
def room (s : FakeInputSource ι) : Nat := s.capabilities.maximumBatchSamples.toNat

/-- The ring is one, and every slot has its own piece of the sample storage. -/
structure WellFormed (s : FakeInputSource ι) : Prop where
  ring : RingBuffer.WellFormed s.slots s.queueCapacity s.queueHead s.queueSize
  storage : s.sampleStorage.length = s.queueCapacity.toNat * s.room
  offsets : ∀ i < s.queueCapacity.toNat, (s.slots.getD i default).sampleOffset = i * s.room
  counts : ∀ slot ∈ RingBuffer.contents s.slots s.queueHead.toNat s.queueSize.toNat,
    slot.sampleCount.toNat ≤ s.room

theorem batches_length (s : FakeInputSource ι) : s.batches.length = s.queueSize.toNat := by
  simp [batches]

theorem batches_eq_nil_iff (s : FakeInputSource ι) : s.batches = [] ↔ s.queueSize = 0 := by
  rw [← List.length_eq_zero_iff, batches_length, ← UInt32.toNat_inj]
  rfl

/-- A source that Create returns: nothing waits, and nobody is bound. -/
theorem WellFormed.of_create {memory : Memory} {descriptor : FakeInputSourceDescriptor}
    {s : FakeInputSource ι} (h : create memory descriptor = .ok s) :
    s.WellFormed ∧ s.model = { capabilities := descriptor.capabilities
                               capacity := descriptor.maximumQueuedBatches.toNat } := by
  rw [create] at h
  split_ifs at h with hdescriptor _ _ _
  obtain rfl := Except.ok.inj h
  simp only [descriptorInvalid, Bool.or_eq_true, beq_iff_eq, decide_eq_true_eq, not_or, not_lt]
    at hdescriptor
  obtain ⟨⟨⟨⟨⟨-, -⟩, hzero⟩, hlimit⟩, -⟩, -⟩ := hdescriptor
  have hpos : 0 < descriptor.maximumQueuedBatches.toNat := by
    rw [Nat.pos_iff_ne_zero]
    exact fun he => hzero (UInt32.toNat_inj.mp he)
  have hbound : descriptor.maximumQueuedBatches.toNat ≤ maximumQueuedBatches.toNat :=
    UInt32.le_iff_toNat_le.mp (UInt32.not_lt.mp hlimit)
  refine ⟨⟨⟨by simp [allocate], hpos, ?_, hpos, Nat.zero_le _⟩,
    by simp [allocate, room], ?_, ?_⟩, rfl⟩
  · exact hbound.trans (by decide)
  · intro i hi
    have hi : i < descriptor.maximumQueuedBatches.toNat := hi
    simp [allocate, room, List.getD_eq_getElem?_getD, hi]
  · simp [allocate]

section Push
variable {s : FakeInputSource ι} {batch : InputBatch}

/-- The slot behind the last waiting batch. -/
theorem WellFormed.tail_slot (h : s.WellFormed)
    (hroom : s.queueSize.toNat < s.queueCapacity.toNat) :
    s.tail.toNat = RingBuffer.slot s.slots.length s.queueHead.toNat s.queueSize.toNat ∧
      s.tail.toNat < s.queueCapacity.toNat := by
  have htail := h.ring.tail_toNat hroom
  refine ⟨htail, ?_⟩
  rw [tail, htail, ← h.ring.length]
  exact RingBuffer.slot_lt (by rw [h.ring.length]; exact h.ring.positive) _ _

/-- The piece of the tail slot lies inside the storage. -/
theorem WellFormed.tail_fits (h : s.WellFormed) (hroom : s.queueSize.toNat < s.queueCapacity.toNat)
    (hsamples : batch.samples.length ≤ s.room) :
    s.tail.toNat * s.room + batch.samples.length ≤ s.sampleStorage.length := by
  have hstep := Nat.mul_le_mul_right s.room (h.tail_slot hroom).2
  rw [Nat.succ_mul] at hstep
  rw [h.storage]
  omega

/-- What a push does to the batches that wait already: nothing. -/
theorem WellFormed.readBatch_push (h : s.WellFormed)
    (hroom : s.queueSize.toNat < s.queueCapacity.toNat)
    (hsamples : batch.samples.length ≤ s.room) {slot : BatchSlot}
    (hslot : slot ∈ RingBuffer.contents s.slots s.queueHead.toNat s.queueSize.toNat) :
    readBatch (s.push batch).sampleStorage slot = readBatch s.sampleStorage slot := by
  obtain ⟨htail, hlt⟩ := h.tail_slot hroom
  have hcount := h.counts slot hslot
  obtain ⟨i, hi, rfl⟩ := RingBuffer.mem_contents.mp hslot
  set cell := RingBuffer.slot s.slots.length s.queueHead.toNat i with hcell
  have hcelllt : cell < s.queueCapacity.toNat := by
    rw [← h.ring.length]
    exact RingBuffer.slot_lt (by rw [h.ring.length]; exact h.ring.positive) _ _
  have hne : cell ≠ s.tail.toNat := by
    rw [htail]
    intro he
    have hlength := h.ring.length
    have := RingBuffer.slot_injective (by omega) (by omega) he
    omega
  have hsegment := Segments.segment_overwrite_ne
    (h.tail_fits hroom hsamples) hsamples hcount hne
  simp only [readBatch, push, h.offsets _ hcelllt, h.offsets _ hlt, hsegment]

theorem WellFormed.push (h : s.WellFormed) (hroom : s.queueSize.toNat < s.queueCapacity.toNat)
    (hsamples : batch.samples.length ≤ s.room) (hlimit : batch.samples.length ≤ 256) :
    (s.push batch).WellFormed ∧ (s.push batch).batches = s.batches ++ [batch] := by
  obtain ⟨htail, hlt⟩ := h.tail_slot hroom
  set slot : BatchSlot :=
    { contact := batch.contact
      batchOrdinal := batch.batchOrdinal
      phase := batch.phase
      sampleOffset := (s.slots.getD s.tail.toNat default).sampleOffset
      sampleCount := UInt32.ofNat batch.samples.length } with hslot
  have hcount : slot.sampleCount.toNat = batch.samples.length := by
    rw [hslot, UInt32.toNat_ofNat']
    exact Nat.mod_eq_of_lt (by omega)
  have hcontents : RingBuffer.contents (s.push batch).slots (s.push batch).queueHead.toNat
      (s.push batch).queueSize.toNat =
        RingBuffer.contents s.slots s.queueHead.toNat s.queueSize.toNat ++ [slot] :=
    h.ring.contents_pushed hroom slot
  have hread : readBatch (s.push batch).sampleStorage slot = batch := by
    have hsegment := Segments.segment_overwrite
      (h.tail_fits hroom hsamples)
    simp only [readBatch, FakeInputSource.push, hcount]
    rw [hslot]
    simp only [h.offsets _ hlt, hsegment]
  refine ⟨⟨h.ring.pushed hroom slot, ?_, ?_, ?_⟩, ?_⟩
  · rw [FakeInputSource.push]
    exact (Segments.length_overwrite (by
      rw [h.offsets _ hlt]
      exact h.tail_fits hroom hsamples)).trans h.storage
  · intro i hi
    have hcells : (s.push batch).slots = s.slots.set s.tail.toNat slot := rfl
    rw [hcells]
    by_cases he : s.tail.toNat = i
    · have hi' : i < s.slots.length := by
        rw [h.ring.length]
        exact hi
      rw [← he, List.getD_eq_getElem?_getD, List.getElem?_set_self (he ▸ hi')]
      exact h.offsets _ hlt
    · rw [List.getD_eq_getElem?_getD, List.getElem?_set_ne he, ← List.getD_eq_getElem?_getD]
      exact h.offsets i hi
  · rw [hcontents]
    intro other hother
    cases List.mem_append.mp hother with
    | inl hold => exact h.counts other hold
    | inr hnew =>
      rw [List.mem_singleton.mp hnew, hcount]
      exact hsamples
  · rw [batches, hcontents, List.map_append, List.map_singleton, hread, batches]
    congr 1
    exact List.map_congr_left fun other hother => h.readBatch_push hroom hsamples hother

theorem model_full_iff (s : FakeInputSource ι) :
    s.queueSize = s.queueCapacity ↔ s.model.pending.length = s.model.capacity := by
  have hlength : s.model.pending.length = s.queueSize.toNat := batches_length s
  rw [hlength, ← UInt32.toNat_inj]
  rfl

theorem WellFormed.room_of_not_full (h : s.WellFormed) (hfull : s.queueSize ≠ s.queueCapacity) :
    s.model.pending.length < s.model.capacity := by
  have hlength : s.model.pending.length = s.queueSize.toNat := batches_length s
  have hcapacity : s.model.capacity = s.queueCapacity.toNat := rfl
  have hne := mt (model_full_iff s).mpr hfull
  have hsize := h.ring.size
  omega

/-- A batch that the rules allow joins the list at its end. -/
theorem WellFormed.queued {next : DeliveryState} (h : s.WellFormed)
    (hfull : s.queueSize ≠ s.queueCapacity)
    (hvalid : validateBatch batch s.capabilities s.script = .ok next) :
    ({ s.push batch with script := next } : FakeInputSource ι).WellFormed ∧
      ({ s.push batch with script := next } : FakeInputSource ι).model =
        { s.model with pending := s.model.pending ++ [batch], script := next } := by
  have hroom := h.room_of_not_full hfull
  rw [model, batches_length] at hroom
  obtain ⟨henv, -⟩ := (validateBatch_eq_ok_iff _ _ _ _).mp hvalid
  obtain ⟨hwf, hbatches⟩ := h.push hroom (henv.bound.trans (min_le_left _ _)) henv.length_le
  refine ⟨⟨hwf.ring, hwf.storage, hwf.offsets, hwf.counts⟩, ?_⟩
  simp only [model, ScriptQueue.mk.injEq]
  exact ⟨rfl, rfl, hbatches, rfl, rfl, trivial, rfl, rfl⟩

end Push

theorem WellFormed.pop {s : FakeInputSource ι} (h : s.WellFormed) (hsize : s.queueSize ≠ 0) :
    s.pop.WellFormed ∧
      s.batches = readBatch s.sampleStorage s.front :: s.pop.batches := by
  have hcontents := h.ring.contents_popped hsize
  refine ⟨⟨h.ring.popped hsize, h.storage, h.offsets, ?_⟩, ?_⟩
  · intro slot hslot
    exact h.counts slot (by rw [hcontents]; exact List.mem_cons_of_mem _ hslot)
  · rw [batches, hcontents]
    rfl

end FakeInputSource

namespace Session
open FakeInputSource
variable {ι ω : Type*}

/-- From `s` to `s'` the receivers saw what the relation allows, and the source stayed a queue. -/
def Emits (s s' : Session ι (Recorded ι ω)) (rel : List (FakeEvent ι) → ScriptQueue ι → Prop) :
    Prop :=
  ∃ events, rel events s'.source.model ∧ s'.world.trace = s.world.trace ++ events ∧
    s'.source.WellFormed

theorem wellFormed_reset {s : FakeInputSource ι} (h : s.WellFormed) :
    s.resetDelivery.WellFormed :=
  ⟨h.ring.emptied, h.storage, h.offsets, by simp [resetDelivery]⟩

variable [IInputReceiver ι ω] {s : Session ι (Recorded ι ω)}

theorem receive_recorded (receiver : ι) (batch : InputBatch) (recorded : Recorded ι ω) :
    IInputReceiver.receive receiver batch recorded =
      ((IInputReceiver.receive receiver batch recorded.world).1,
        { world := (IInputReceiver.receive receiver batch recorded.world).2
          trace := recorded.trace ++ [.receive receiver batch
            (IInputReceiver.receive receiver batch recorded.world).1] }) := rfl

theorem start_refines (h : s.source.WellFormed) (receiver : ι) :
    Emits s (s.perform (.start receiver))
      (ScriptQueue.Calls s.source.model (.start receiver)) := by
  by_cases hbound : s.source.receiver.isSome
  · refine ⟨[.called (.start receiver)], ?_, ?_, ?_⟩
    all_goals simp only [perform, start, record_source, hbound, if_true]
    · exact .bound (Option.isSome_iff_ne_none.mp hbound)
    · rfl
    · exact h
  · refine ⟨[.called (.start receiver)], ?_, ?_, ?_⟩
    all_goals simp only [perform, start, record_source, hbound]
    · exact .started (Option.not_isSome_iff_eq_none.mp hbound)
    · rfl
    · exact ⟨h.ring, h.storage, h.offsets, h.counts⟩

theorem stop_refines (h : s.source.WellFormed) :
    Emits s (s.perform .stop) (ScriptQueue.Calls s.source.model .stop) := by
  have hreset := wellFormed_reset h
  cases hr : s.source.receiver with
  | none =>
    refine ⟨[.called .stop, .stopped s.source.receiver],
      .closed fun hne => absurd hr hne, ?_, hreset⟩
    simp [perform, stop, hr]
  | some receiver =>
    by_cases hopen : s.source.deliveredContact.value ≠ 0
    · refine ⟨[.called .stop, .receive receiver s.source.cancelBatch
        (IInputReceiver.receive receiver s.source.cancelBatch s.world.world).1,
        .stopped s.source.receiver], .cancelled hr hopen, ?_, hreset⟩
      simp [perform, stop, hr, receive_recorded, if_neg hopen]
      rfl
    · refine ⟨[.called .stop, .stopped s.source.receiver],
        .closed fun _ => not_not.mp hopen, ?_, hreset⟩
      simp [perform, stop, hr, hopen]

theorem enqueue_refines (h : s.source.WellFormed) (batch : InputBatch) :
    Emits s (s.perform (.enqueue batch)) (ScriptQueue.Calls s.source.model (.enqueue batch)) := by
  by_cases hfull : s.source.queueSize = s.source.queueCapacity
  · refine ⟨[.called (.enqueue batch)], ?_, ?_, ?_⟩
    all_goals simp only [perform, enqueue, record_source, hfull, if_true]
    · exact .refused (Or.inl ((model_full_iff _).mp hfull))
    · rfl
    · exact h
  · cases hvalid : validateBatch batch s.source.capabilities s.source.script with
    | error error =>
      refine ⟨[.called (.enqueue batch)], ?_, ?_, ?_⟩
      all_goals simp only [perform, enqueue, record_source, hfull, if_false, hvalid]
      · exact .refused (Or.inr (by simp [model, hvalid, Except.isOk, Except.toBool]))
      · rfl
      · exact h
    | ok next =>
      obtain ⟨hwf, hmodel⟩ := h.queued hfull hvalid
      refine ⟨[.called (.enqueue batch)], ?_, ?_, ?_⟩
      all_goals simp only [perform, enqueue, record_source, hfull, if_false, hvalid]
      · exact hmodel ▸ .queued (h.room_of_not_full hfull) hvalid
      · rfl
      · exact hwf

theorem dispatchNext_refines (h : s.source.WellFormed) :
    Emits s (s.perform .dispatchNext) (ScriptQueue.Calls s.source.model .dispatchNext) := by
  cases hr : s.source.receiver with
  | none =>
    refine ⟨[.called .dispatchNext], ?_, ?_, ?_⟩
    all_goals simp only [perform, dispatchNext, record_source, hr]
    · exact .idle (Or.inl hr)
    · rfl
    · exact h
  | some receiver =>
    by_cases hfail : s.source.failNext
    · refine ⟨[.called .dispatchNext, .sourceFailed receiver .BackendFailure], ?_, ?_, ?_⟩
      all_goals simp only [perform, dispatchNext, record_source, hr, hfail, if_true]
      · exact .failed hr hfail
      · simp [IInputReceiver.sourceFailed]
      · exact wellFormed_reset h
    · by_cases hempty : s.source.queueSize = 0
      · refine ⟨[.called .dispatchNext], ?_, ?_, ?_⟩
        all_goals simp only [perform, dispatchNext, record_source, hr, hfail, hempty, if_true]
        · exact .idle (Or.inr ⟨Bool.not_eq_true _ ▸ hfail, (batches_eq_nil_iff _).mpr hempty⟩)
        · rfl
        · exact h
      · obtain ⟨hwf, hbatches⟩ := h.pop hempty
        have hfail' : s.source.model.failNext = false := Bool.not_eq_true _ ▸ hfail
        set batch := readBatch s.source.sampleStorage s.source.front with hbatch
        rcases hanswer : IInputReceiver.receive receiver batch s.world.world with ⟨result, world⟩
        refine ⟨[.called .dispatchNext, .receive receiver batch result], ?_, ?_, ?_⟩
        all_goals simp only [perform, dispatchNext, hr, hfail, hempty, if_false, ← hbatch,
          receive_recorded, record, hanswer]
        all_goals cases result
        · exact .accepted hr hfail' hbatches
        · exact .busy hr hfail' hbatches
        · exact .rejected hr hfail' hbatches
        · simp
        · simp
        · simp
        · exact ⟨hwf.ring, hwf.storage, hwf.offsets, hwf.counts⟩
        · exact h
        · exact ⟨h.ring.emptied, h.storage, h.offsets, by simp [abandon]⟩

/-- Every call to the source is a call of the queue. -/
theorem perform_refines (h : s.source.WellFormed) (op : FakeOp ι) :
    Emits s (s.perform op) (ScriptQueue.Calls s.source.model op) := by
  cases op with
  | start receiver => exact start_refines h receiver
  | stop => exact stop_refines h
  | enqueue batch => exact enqueue_refines h batch
  | failNext =>
    exact ⟨[.called .failNext], .failNext, rfl, ⟨h.ring, h.storage, h.offsets, h.counts⟩⟩
  | dispatchNext => exact dispatchNext_refines h

/-- Calls to a source that is written down, and calls of its queue. -/
def simulation :
    Simulation (Session ι (Recorded ι ω)) (ScriptQueue ι) (FakeOp ι) (FakeEvent ι) where
  perform := perform
  trace s := s.world.trace
  model s := s.source.model
  wellFormed s := s.source.WellFormed
  calls := ScriptQueue.Calls
  call? := FakeEvent.call?
  labelled hcall := hcall.call_eq
  refines _ op h := perform_refines h op

/-- Every run of a source that Create returned is a run of the queue with the same conversation. -/
theorem run_refines {memory : Memory} {descriptor : FakeInputSourceDescriptor}
    {source : FakeInputSource ι} (h : create memory descriptor = .ok source) (world : ω)
    (ops : List (FakeOp ι)) :
    Reaches ScriptQueue.Calls (fun _ _ _ => True)
        { capabilities := descriptor.capabilities
          capacity := descriptor.maximumQueuedBatches.toNat }
        (run source world ops).world.trace (run source world ops).source.model ∧
      (run source world ops).source.WellFormed := by
  obtain ⟨hwf, hmodel⟩ := FakeInputSource.WellFormed.of_create h
  obtain ⟨hreach, -, -, hlast⟩ := simulation.reaches
    (s := { source := source, world := { world := world : Recorded ι ω } }) hwf
    (fun _ _ _ => True) ops fun _ _ _ _ => trivial
  exact ⟨hmodel ▸ hreach, hlast⟩

end Session
end LightPhi.Fake
