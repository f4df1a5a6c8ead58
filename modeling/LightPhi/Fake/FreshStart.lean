import LightPhi.Fake.Fifo

/-! A source that was stopped or has failed cannot be told from one just created: the slots, the
samples and the ordinal it keeps from earlier sessions are never read again. -/
namespace LightPhi.Fake
open Base Input
variable {ι ω : Type*}

/-- A call and a result that end the session, and with it what the source remembers. -/
def EndsSession : FakeCall ι × FakeResult → Prop
  | (.op .stop, _) => True
  | (.op .dispatchNext, .dispatched (.error .BackendFailure)) => True
  | _ => False

namespace QueueSession

def withOrdinal (ordinal : UInt64) (t : QueueSession ι ω) : QueueSession ι ω :=
  { t with queue := { t.queue with deliveredBatchOrdinal := ordinal } }

/-- The lists agree, but for an ordinal that belongs to no contact. -/
def SameButOrdinal (t t' : QueueSession ι ω) : Prop :=
  ∃ ordinal, t' = t.withOrdinal ordinal ∧
    (t.queue.deliveredContact.value ≠ 0 → ordinal = t.queue.deliveredBatchOrdinal)

section WithOrdinal
variable {t : QueueSession ι ω} {ordinal : UInt64}

theorem enqueue_withOrdinal (batch : InputBatch)
    (h : t.queue.deliveredContact.value ≠ 0 → ordinal = t.queue.deliveredBatchOrdinal) :
    ((t.withOrdinal ordinal).enqueue batch).1 = (t.enqueue batch).1 ∧
      (t.enqueue batch).2.SameButOrdinal ((t.withOrdinal ordinal).enqueue batch).2 := by
  have hpending : (t.withOrdinal ordinal).queue.pending = t.queue.pending := rfl
  have hcapacity : (t.withOrdinal ordinal).queue.capacity = t.queue.capacity := rfl
  have hcapabilities : (t.withOrdinal ordinal).queue.capabilities = t.queue.capabilities := rfl
  have hscript : (t.withOrdinal ordinal).queue.script = t.queue.script := rfl
  simp only [enqueue, hpending, hcapacity, hcapabilities, hscript]
  split_ifs
  · exact ⟨rfl, ordinal, rfl, h⟩
  · cases validateBatch batch t.queue.capabilities t.queue.script with
    | error error => exact ⟨rfl, ordinal, rfl, h⟩
    | ok next => exact ⟨rfl, ordinal, rfl, h⟩

variable [IInputReceiver ι ω]

/-- The ordinal goes into the cancellation, and the cancellation only to a contact it belongs to. -/
theorem stop_withOrdinal
    (h : t.queue.deliveredContact.value ≠ 0 → ordinal = t.queue.deliveredBatchOrdinal) :
    (t.withOrdinal ordinal).stop = t.stop.withOrdinal ordinal := by
  by_cases hopen : t.queue.deliveredContact.value = 0
  · simp only [stop, withOrdinal, hopen, ne_eq, not_true, if_false]
    rfl
  · rw [h hopen]
    rfl

theorem dispatchNext_withOrdinal
    (h : t.queue.deliveredContact.value ≠ 0 → ordinal = t.queue.deliveredBatchOrdinal) :
    (t.withOrdinal ordinal).dispatchNext.1 = t.dispatchNext.1 ∧
      t.dispatchNext.2.SameButOrdinal (t.withOrdinal ordinal).dispatchNext.2 := by
  have hreceiver : (t.withOrdinal ordinal).queue.receiver = t.queue.receiver := rfl
  have hfail : (t.withOrdinal ordinal).queue.failNext = t.queue.failNext := rfl
  have hpending : (t.withOrdinal ordinal).queue.pending = t.queue.pending := rfl
  have hworld : (t.withOrdinal ordinal).world = t.world := rfl
  simp only [dispatchNext, hreceiver, hfail, hpending, hworld]
  cases t.queue.receiver with
  | none => exact ⟨rfl, ordinal, rfl, h⟩
  | some receiver =>
    simp only
    split_ifs
    · exact ⟨rfl, ordinal, rfl, fun hopen => absurd rfl hopen⟩
    · cases t.queue.pending with
      | nil => exact ⟨rfl, ordinal, rfl, h⟩
      | cons batch rest =>
        simp only
        rcases IInputReceiver.receive receiver batch t.world with ⟨result, world⟩
        cases result with
        | Accepted => exact ⟨rfl, batch.batchOrdinal, rfl, fun _ => rfl⟩
        | Busy => exact ⟨rfl, ordinal, rfl, h⟩
        | Rejected => exact ⟨rfl, ordinal, rfl, fun hopen => absurd rfl hopen⟩

theorem answer_withOrdinal (call : FakeCall ι)
    (h : t.queue.deliveredContact.value ≠ 0 → ordinal = t.queue.deliveredBatchOrdinal) :
    (t.answer call).1 = ((t.withOrdinal ordinal).answer call).1 ∧
      (t.answer call).2.SameButOrdinal ((t.withOrdinal ordinal).answer call).2 := by
  cases call with
  | capabilities => exact ⟨rfl, ordinal, rfl, h⟩
  | queuedBatchCount => exact ⟨rfl, ordinal, rfl, h⟩
  | op op =>
    cases op with
    | start receiver =>
      by_cases hbound : t.queue.receiver.isSome
      all_goals simp only [answer, withOrdinal, hbound, if_true]
      · exact ⟨trivial, ordinal, rfl, h⟩
      · exact ⟨rfl, ordinal, rfl, h⟩
    | stop => exact ⟨rfl, ordinal, stop_withOrdinal h, fun hopen => absurd rfl hopen⟩
    | enqueue batch =>
      obtain ⟨hresult, hsame⟩ := enqueue_withOrdinal batch h
      exact ⟨congrArg FakeResult.enqueued hresult.symm, hsame⟩
    | failNext => exact ⟨rfl, ordinal, rfl, h⟩
    | dispatchNext =>
      obtain ⟨hresult, hsame⟩ := dispatchNext_withOrdinal h
      exact ⟨congrArg FakeResult.dispatched hresult.symm, hsame⟩

end WithOrdinal

/-- An empty list with the bounds of another is the other one when new, but for the ordinal. -/
theorem sameButOrdinal_of_reset {q q' : ScriptQueue ι} (hbounds : q.bounds = q'.bounds)
    (hnew : q' = q'.reset) (world : ω) :
    SameButOrdinal ⟨q.reset, world⟩ ⟨q', world⟩ := by
  refine ⟨q'.deliveredBatchOrdinal, ?_, fun hopen => absurd rfl hopen⟩
  obtain ⟨hcapabilities, hcapacity⟩ := Prod.mk.inj hbounds
  rw [hnew]
  simp [withOrdinal, ScriptQueue.reset, hcapabilities, hcapacity]

variable [IInputReceiver ι ω]

/-- No sequence of calls brings the ordinal to light. -/
theorem answer_same : Machine.Alike (answer (ι := ι) (ω := ω)) answer SameButOrdinal where
  same h call := by
    obtain ⟨ordinal, rfl, hopen⟩ := h
    exact (answer_withOrdinal call hopen).1
  next h call := by
    obtain ⟨ordinal, rfl, hopen⟩ := h
    exact (answer_withOrdinal call hopen).2

/-- The end of a session empties the list. -/
theorem reset_answer {t : QueueSession ι ω} {call : FakeCall ι}
    (h : EndsSession (call, (t.answer call).1)) : (t.answer call).2.queue = t.queue.reset := by
  cases call with
  | capabilities => exact h.elim
  | queuedBatchCount => exact h.elim
  | op op =>
    cases op with
    | start receiver => exact h.elim
    | stop => rfl
    | enqueue batch => exact h.elim
    | failNext => exact h.elim
    | dispatchNext =>
      have hcases := dispatchNext_cases t
      rw [answer] at h ⊢
      generalize t.dispatchNext = outcome at hcases h ⊢
      cases hcases with
      | failed _ _ => rfl
      | _ => exact h.elim

end QueueSession

namespace Session
variable [IInputReceiver ι ω]

/-- The bounds of the source are those of the descriptor after every call. -/
theorem bounds_after {memory : Memory} {descriptor : FakeInputSourceDescriptor}
    {source : FakeInputSource ι} (h : FakeInputSource.create memory descriptor = .ok source)
    (world : ω) (calls : List (FakeCall ι)) :
    (Machine.after answer { source := source, world := world } calls).source.WellFormed ∧
      (Machine.after answer { source := source, world := world } calls).source.model.bounds =
        (descriptor.capabilities, descriptor.maximumQueuedBatches.toNat) := by
  obtain ⟨hwf, hmodel⟩ := FakeInputSource.WellFormed.of_create h
  refine Machine.invariant answer (fun _ s => s.source.WellFormed ∧ s.source.model.bounds =
    (descriptor.capabilities, descriptor.maximumQueuedBatches.toNat)) ⟨hwf, by rw [hmodel]; rfl⟩
    (fun past s call hs => ?_) calls
  obtain ⟨-, hwf', hmodel'⟩ := answer_models hs.1 call
  have hkept := s.model.bounds_answer call
  rw [hmodel'] at hkept
  exact ⟨hwf', hkept.trans hs.2⟩

/-- Sources whose lists agree but for such an ordinal give the same answers and make the same
calls to the receivers. -/
theorem indistinguishable {s s' : Session ι ω} (hs : s.source.WellFormed)
    (hs' : s'.source.WellFormed) (h : s.model.SameButOrdinal s'.model)
    (calls : List (FakeCall ι)) :
    Machine.answers answer s calls = Machine.answers answer s' calls ∧
      s.receiverCalls calls = s'.receiverCalls calls := by
  have hrecorded : s.recorded.model.SameButOrdinal s'.recorded.model := by
    obtain ⟨ordinal, heq, hopen⟩ := h
    have hqueue : s'.source.model = { s.source.model with deliveredBatchOrdinal := ordinal } :=
      congrArg QueueSession.queue heq
    have hworld : s'.world = s.world := congrArg QueueSession.world heq
    refine ⟨ordinal, ?_, hopen⟩
    simp only [recorded, model, hqueue, hworld]
    rfl
  constructor
  · rw [answer_alike.answers ⟨hs, rfl⟩ calls, answer_alike.answers ⟨hs', rfl⟩ calls]
    exact QueueSession.answer_same.answers h calls
  · obtain ⟨-, hleft⟩ := answer_alike.after (s := s.recorded) ⟨hs, rfl⟩ calls
    obtain ⟨-, hright⟩ := answer_alike.after (s := s'.recorded) ⟨hs', rfl⟩ calls
    obtain ⟨ordinal, hsame, -⟩ := QueueSession.answer_same.after hrecorded calls
    rw [hleft, hright] at hsame
    exact (congrArg (fun t => Recorded.trace (QueueSession.world t)) hsame).symm

/-- Behind Stop, and behind a dispatch that reports the failure of the backend, every sequence of
calls is answered, and seen by the receivers, as on a source just created from the same
descriptor. -/
theorem like_new {memory memory' : Memory} {descriptor : FakeInputSourceDescriptor}
    {source fresh : FakeInputSource ι} (h : FakeInputSource.create memory descriptor = .ok source)
    (hfresh : FakeInputSource.create memory' descriptor = .ok fresh) (world : ω)
    (history : List (FakeCall ι)) (call : FakeCall ι)
    (hends : EndsSession (call, (answer
      (Machine.after answer { source := source, world := world } history) call).1))
    (continuation : List (FakeCall ι)) :
    let s := Machine.after answer { source := source, world := world } (history ++ [call])
    Machine.answers answer s continuation =
        Machine.answers answer { source := fresh, world := s.world } continuation ∧
      s.receiverCalls continuation =
        receiverCalls { source := fresh, world := s.world } continuation := by
  intro s
  set before := Machine.after answer { source := source, world := world } history with hbefore
  obtain ⟨hwf, hbounds⟩ : before.source.WellFormed ∧ before.source.model.bounds =
    (descriptor.capabilities, descriptor.maximumQueuedBatches.toNat) := bounds_after h world history
  obtain ⟨hfreshwf, hfreshmodel⟩ := FakeInputSource.WellFormed.of_create hfresh
  obtain ⟨hsame, hnext, hmodel⟩ := answer_models hwf call
  have hs : s = (before.answer call).2 := Machine.after_append answer _ history [call]
  have hreset : s.source.model = before.source.model.reset := by
    rw [hsame] at hends
    rw [hs]
    exact (congrArg QueueSession.queue hmodel).symm.trans (QueueSession.reset_answer hends)
  have hnew : fresh.model = fresh.model.reset := by
    rw [hfreshmodel]
    rfl
  have hfreshbounds : fresh.model.bounds =
      (descriptor.capabilities, descriptor.maximumQueuedBatches.toNat) := by
    rw [hfreshmodel]
    rfl
  have hagree := QueueSession.sameButOrdinal_of_reset (hbounds.trans hfreshbounds.symm) hnew s.world
  rw [← hreset] at hagree
  exact indistinguishable (hs ▸ hnext) hfreshwf hagree continuation

/-- A session of two batches that ends while the contact is open to the receiver. -/
theorem like_new_stopped :
    let s := Machine.after answer
      { source := .allocate twoBatches, world := busySecond } (wrappingCalls ++ [.op .stop])
    Machine.answers answer s wrappingCalls =
        Machine.answers answer { source := .allocate twoBatches, world := s.world } wrappingCalls ∧
      s.receiverCalls wrappingCalls =
        receiverCalls { source := .allocate twoBatches, world := s.world } wrappingCalls :=
  like_new twoBatches_created twoBatches_created busySecond wrappingCalls (.op .stop) trivial
    wrappingCalls

end Session
end LightPhi.Fake
