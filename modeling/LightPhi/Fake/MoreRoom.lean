import LightPhi.Fake.FreshStart

/-! A source with more room behaves as one with less, until that one is full. -/
namespace LightPhi.Fake
open Base Input
variable {ι ω : Type*}

/-- The answer that a full queue gives. -/
def SaysFull (result : FakeResult) : Prop := result = .enqueued (.error .QueueFull)

instance : DecidablePred SaysFull := fun result =>
  inferInstanceAs (Decidable (result = .enqueued (.error .QueueFull)))

namespace QueueSession

def withRoom (capacity : Nat) (t : QueueSession ι ω) : QueueSession ι ω :=
  { t with queue := { t.queue with capacity := capacity } }

/-- The lists agree, and the second may grow longer. -/
def MoreRoom (t t' : QueueSession ι ω) : Prop :=
  ∃ capacity, t' = t.withRoom capacity ∧ t.queue.capacity ≤ capacity ∧
    t.queue.pending.length ≤ t.queue.capacity

section WithRoom
variable {t : QueueSession ι ω} {capacity : Nat} (hmore : t.queue.capacity ≤ capacity)
  (hroom : t.queue.pending.length ≤ t.queue.capacity)
include hmore hroom

theorem enqueue_withRoom (batch : InputBatch) (h : (t.enqueue batch).1 ≠ .error .QueueFull) :
    (t.enqueue batch).1 = ((t.withRoom capacity).enqueue batch).1 ∧
      (t.enqueue batch).2.MoreRoom ((t.withRoom capacity).enqueue batch).2 := by
  have hpending : (t.withRoom capacity).queue.pending = t.queue.pending := rfl
  have hcapacity : (t.withRoom capacity).queue.capacity = capacity := rfl
  have hcapabilities : (t.withRoom capacity).queue.capabilities = t.queue.capabilities := rfl
  have hscript : (t.withRoom capacity).queue.script = t.queue.script := rfl
  by_cases hfull : t.queue.pending.length = t.queue.capacity
  · rw [enqueue, if_pos hfull] at h
    exact absurd rfl h
  · have hless : t.queue.pending.length ≠ capacity := by omega
    simp only [enqueue, hpending, hcapacity, hcapabilities, hscript, if_neg hfull, if_neg hless]
    cases validateBatch batch t.queue.capabilities t.queue.script with
    | error error => exact ⟨rfl, capacity, rfl, hmore, hroom⟩
    | ok next =>
      refine ⟨rfl, capacity, rfl, hmore, ?_⟩
      simp only [List.length_append, List.length_singleton]
      omega

variable [IInputReceiver ι ω]

theorem dispatchNext_withRoom :
    t.dispatchNext.1 = (t.withRoom capacity).dispatchNext.1 ∧
      t.dispatchNext.2.MoreRoom (t.withRoom capacity).dispatchNext.2 := by
  have hreceiver : (t.withRoom capacity).queue.receiver = t.queue.receiver := rfl
  have hfail : (t.withRoom capacity).queue.failNext = t.queue.failNext := rfl
  have hpending : (t.withRoom capacity).queue.pending = t.queue.pending := rfl
  have hworld : (t.withRoom capacity).world = t.world := rfl
  simp only [dispatchNext, hreceiver, hfail, hpending, hworld]
  cases t.queue.receiver with
  | none => exact ⟨rfl, capacity, rfl, hmore, hroom⟩
  | some receiver =>
    simp only
    split_ifs
    · exact ⟨rfl, capacity, rfl, hmore, Nat.zero_le _⟩
    · cases hbatches : t.queue.pending with
      | nil => exact ⟨rfl, capacity, rfl, hmore, hroom⟩
      | cons batch rest =>
        rw [hbatches, List.length_cons] at hroom
        have hrest : rest.length ≤ t.queue.capacity := Nat.le_of_succ_le hroom
        simp only
        rcases IInputReceiver.receive receiver batch t.world with ⟨result, world⟩
        cases result with
        | Accepted => exact ⟨rfl, capacity, rfl, hmore, hrest⟩
        | Busy => exact ⟨rfl, capacity, rfl, hmore, by simpa [hbatches] using hroom⟩
        | Rejected => exact ⟨rfl, capacity, rfl, hmore, Nat.zero_le _⟩

theorem answer_withRoom (call : FakeCall ι) (h : ¬ SaysFull (t.answer call).1) :
    (t.answer call).1 = ((t.withRoom capacity).answer call).1 ∧
      (t.answer call).2.MoreRoom ((t.withRoom capacity).answer call).2 := by
  cases call with
  | capabilities => exact ⟨rfl, capacity, rfl, hmore, hroom⟩
  | queuedBatchCount => exact ⟨rfl, capacity, rfl, hmore, hroom⟩
  | op op =>
    cases op with
    | start receiver =>
      by_cases hbound : t.queue.receiver.isSome
      all_goals simp only [answer, withRoom, hbound, if_true]
      · exact ⟨trivial, capacity, rfl, hmore, hroom⟩
      · exact ⟨rfl, capacity, rfl, hmore, hroom⟩
    | stop => exact ⟨rfl, capacity, rfl, hmore, Nat.zero_le _⟩
    | enqueue batch =>
      obtain ⟨hresult, hnext⟩ := enqueue_withRoom hmore hroom batch fun hfull =>
        h (congrArg FakeResult.enqueued hfull)
      exact ⟨congrArg FakeResult.enqueued hresult, hnext⟩
    | failNext => exact ⟨rfl, capacity, rfl, hmore, hroom⟩
    | dispatchNext =>
      obtain ⟨hresult, hnext⟩ := dispatchNext_withRoom hmore hroom
      exact ⟨congrArg FakeResult.dispatched hresult, hnext⟩

end WithRoom

/-- Only an answer of the full queue can tell them apart. -/
theorem answer_moreRoom [IInputReceiver ι ω] :
    Machine.AlikeUnless (answer (ι := ι) (ω := ω)) answer MoreRoom SaysFull where
  same h call hnone := by
    obtain ⟨capacity, rfl, hmore, hroom⟩ := h
    exact (answer_withRoom hmore hroom call hnone).1
  next h call hnone := by
    obtain ⟨capacity, rfl, hmore, hroom⟩ := h
    exact (answer_withRoom hmore hroom call hnone).2

/-- The list in the world without the record. -/
def unrecorded (t : QueueSession ι (Recorded ι ω)) : QueueSession ι ω :=
  { queue := t.queue, world := t.world.world }

theorem enqueue_unrecorded (t : QueueSession ι (Recorded ι ω)) (batch : InputBatch) :
    (t.enqueue batch).1 = (t.unrecorded.enqueue batch).1 ∧
      (t.unrecorded.enqueue batch).2 = (t.enqueue batch).2.unrecorded := by
  have hqueue : t.unrecorded.queue = t.queue := rfl
  simp only [enqueue, hqueue]
  split_ifs
  · exact ⟨rfl, rfl⟩
  · cases validateBatch batch t.queue.capabilities t.queue.script with
    | error error => exact ⟨rfl, rfl⟩
    | ok next => exact ⟨rfl, rfl⟩

section Unrecorded
variable [IInputReceiver ι ω] (t : QueueSession ι (Recorded ι ω))

theorem stop_unrecorded : t.unrecorded.stop = t.stop.unrecorded := by
  rw [stop, stop, unrecorded, unrecorded]
  cases t.queue.receiver with
  | none => rfl
  | some receiver =>
    simp only
    split_ifs <;> rfl

theorem dispatchNext_unrecorded :
    t.dispatchNext.1 = t.unrecorded.dispatchNext.1 ∧
      t.unrecorded.dispatchNext.2 = t.dispatchNext.2.unrecorded := by
  have hqueue : t.unrecorded.queue = t.queue := rfl
  have hworld : t.unrecorded.world = t.world.world := rfl
  simp only [dispatchNext, hqueue, hworld]
  cases t.queue.receiver with
  | none => exact ⟨rfl, rfl⟩
  | some receiver =>
    simp only
    split_ifs
    · exact ⟨rfl, rfl⟩
    · cases t.queue.pending with
      | nil => exact ⟨rfl, rfl⟩
      | cons batch rest =>
        simp only [Session.receive_recorded]
        rcases IInputReceiver.receive receiver batch t.world.world with ⟨result, world⟩
        cases result <;> exact ⟨rfl, rfl⟩

end Unrecorded

theorem answer_unrecorded_call [IInputReceiver ι ω] (t : QueueSession ι (Recorded ι ω))
    (call : FakeCall ι) : (t.answer call).1 = (t.unrecorded.answer call).1 ∧
      (t.unrecorded.answer call).2 = (t.answer call).2.unrecorded := by
  cases call with
  | capabilities => exact ⟨rfl, rfl⟩
  | queuedBatchCount => exact ⟨rfl, rfl⟩
  | op op =>
    cases op with
    | start receiver =>
      rw [answer, answer, unrecorded]
      split_ifs <;> exact ⟨rfl, rfl⟩
    | stop => exact ⟨rfl, stop_unrecorded t⟩
    | enqueue batch =>
      obtain ⟨hresult, hnext⟩ := enqueue_unrecorded t batch
      exact ⟨congrArg FakeResult.enqueued hresult, hnext⟩
    | failNext => exact ⟨rfl, rfl⟩
    | dispatchNext =>
      obtain ⟨hresult, hnext⟩ := dispatchNext_unrecorded t
      exact ⟨congrArg FakeResult.dispatched hresult, hnext⟩

/-- The record changes nothing. -/
theorem answer_unrecorded [IInputReceiver ι ω] :
    Machine.Alike (answer (ι := ι) (ω := Recorded ι ω)) (answer (ω := ω))
      fun t t' => t' = t.unrecorded where
  same h call := by
    rw [h]
    exact (answer_unrecorded_call _ call).1
  next h call := by
    rw [h]
    exact (answer_unrecorded_call _ call).2

end QueueSession

namespace Session
variable [IInputReceiver ι ω]

section Created
variable {memory memory' : Memory} {descriptor descriptor' : FakeInputSourceDescriptor}
  {source source' : FakeInputSource ι}
  (h : FakeInputSource.create memory descriptor = .ok source)
  (h' : FakeInputSource.create memory' descriptor' = .ok source')
  (hcapabilities : descriptor'.capabilities = descriptor.capabilities)
  (hmore : descriptor.maximumQueuedBatches ≤ descriptor'.maximumQueuedBatches)
include h h' hcapabilities hmore

omit [IInputReceiver ι ω] in
theorem moreRoom_of_create (world : ω) :
    QueueSession.MoreRoom ({ source := source, world := world } : Session ι ω).model
      ({ source := source', world := world } : Session ι ω).model := by
  obtain ⟨-, hmodel⟩ := FakeInputSource.WellFormed.of_create h
  obtain ⟨-, hmodel'⟩ := FakeInputSource.WellFormed.of_create h'
  refine ⟨descriptor'.maximumQueuedBatches.toNat, ?_, ?_, ?_⟩
  · simp only [model, hmodel, hmodel', hcapabilities]
    rfl
  · rw [model, hmodel]
    exact UInt32.le_iff_toNat_le.mp hmore
  · rw [model, hmodel]
    exact Nat.zero_le _

/-- Two sources that differ in their room alone answer every sequence of calls alike, and call
their receivers alike, unless the smaller one is full for one of the calls. -/
theorem more_room (world : ω) (calls : List (FakeCall ι))
    (hnever : ∀ result ∈ Machine.answers answer { source := source, world := world } calls,
      ¬ SaysFull result) :
    let s : Session ι ω := { source := source, world := world }
    let s' : Session ι ω := { source := source', world := world }
    Machine.answers answer s' calls = Machine.answers answer s calls ∧
      s'.receiverCalls calls = s.receiverCalls calls ∧
      (Machine.after answer s' calls).world = (Machine.after answer s calls).world := by
  intro s s'
  obtain ⟨hwf, -⟩ := FakeInputSource.WellFormed.of_create h
  obtain ⟨hwf', -⟩ := FakeInputSource.WellFormed.of_create h'
  have hanswers := answer_alike.answers (s := s) ⟨hwf, rfl⟩ calls
  have hanswers' := answer_alike.answers (s := s') ⟨hwf', rfl⟩ calls
  have hrecorded : Machine.answers QueueSession.answer s.recorded.model calls =
      Machine.answers QueueSession.answer s.model calls :=
    QueueSession.answer_unrecorded.answers rfl calls
  rw [hanswers] at hnever
  obtain ⟨hsame, capacity, hafter, -⟩ := QueueSession.answer_moreRoom.run
    (moreRoom_of_create h h' hcapabilities hmore world) calls hnever
  rw [← hrecorded] at hnever
  obtain ⟨-, capacity', hnoted, -⟩ := QueueSession.answer_moreRoom.run
    (moreRoom_of_create h h' hcapabilities hmore (⟨world, []⟩ : Recorded ι ω)) calls hnever
  refine ⟨?_, ?_, ?_⟩
  · rw [hanswers, hanswers', hsame]
  · obtain ⟨-, hleft⟩ := answer_alike.after (s := s.recorded) ⟨hwf, rfl⟩ calls
    obtain ⟨-, hright⟩ := answer_alike.after (s := s'.recorded) ⟨hwf', rfl⟩ calls
    have hworld : (Machine.after answer s'.recorded calls).model =
        (Machine.after answer s.recorded calls).model.withRoom capacity' := by
      rw [← hleft, ← hright]
      exact hnoted
    exact congrArg (fun t => Recorded.trace (QueueSession.world t)) hworld
  · obtain ⟨-, hleft⟩ := answer_alike.after (s := s) ⟨hwf, rfl⟩ calls
    obtain ⟨-, hright⟩ := answer_alike.after (s := s') ⟨hwf', rfl⟩ calls
    have hworld : (Machine.after answer s' calls).model =
        (Machine.after answer s calls).model.withRoom capacity := by
      rw [← hleft, ← hright]
      exact hafter
    exact congrArg QueueSession.world hworld

end Created

def nineBatches : FakeInputSourceDescriptor := { twoBatches with maximumQueuedBatches := 9 }

theorem nineBatches_created :
    FakeInputSource.create (ι := Unit) {} nineBatches = .ok (.allocate nineBatches) := by
  rfl

/-- Room for two batches is enough where no third one comes before the first has gone. -/
theorem more_room_wrapped :
    let s : Session Unit Answers := { source := .allocate twoBatches, world := busySecond }
    let s' : Session Unit Answers := { source := .allocate nineBatches, world := busySecond }
    Machine.answers answer s' wrappingCalls = Machine.answers answer s wrappingCalls ∧
      s'.receiverCalls wrappingCalls = s.receiverCalls wrappingCalls ∧
      (Machine.after answer s' wrappingCalls).world =
        (Machine.after answer s wrappingCalls).world :=
  more_room twoBatches_created nineBatches_created rfl (by decide) busySecond wrappingCalls
    (by decide +kernel)

end Session
end LightPhi.Fake
