import LightPhi.Fake.Calls

/-! The source seen from outside: a first-in first-out list of batch copies with a size limit. What
waits is worked out from the calls and their results alone. -/
namespace LightPhi.Fake
open Base Input
variable {ι ω : Type*}

/-- What one call does to the batches that were enqueued and neither accepted nor discarded. -/
def settle (waiting : List InputBatch) : FakeCall ι × FakeResult → List InputBatch
  | (.op (.enqueue batch), .enqueued (.ok _)) => waiting ++ [batch]
  | (.op .dispatchNext, .dispatched (.ok _)) => waiting.tail
  | (.op .dispatchNext, .dispatched (.error .ReceiverRejected)) => []
  | (.op .dispatchNext, .dispatched (.error .BackendFailure)) => []
  | (.op .stop, _) => []
  | _ => waiting

/-- The batches that wait after the given calls and results, oldest first. -/
def waiting (log : List (FakeCall ι × FakeResult)) : List InputBatch := log.foldl settle []

@[simp] theorem waiting_concat (log : List (FakeCall ι × FakeResult))
    (entry : FakeCall ι × FakeResult) : waiting (log ++ [entry]) = settle (waiting log) entry := by
  simp [waiting]

variable [IInputReceiver ι ω]

namespace QueueSession

/-- The list never holds anything else than what the calls and their results say. -/
theorem pending_answer (t : QueueSession ι ω) (call : FakeCall ι) :
    (t.answer call).2.queue.pending = settle t.queue.pending (call, (t.answer call).1) := by
  cases call with
  | capabilities => rfl
  | queuedBatchCount => rfl
  | op op =>
    cases op with
    | start receiver =>
      rw [answer]
      split_ifs <;> rfl
    | stop => rfl
    | enqueue batch =>
      have hcases := enqueue_cases t batch
      rw [answer]
      generalize t.enqueue batch = outcome at hcases ⊢
      cases hcases <;> rfl
    | failNext => rfl
    | dispatchNext =>
      have hcases := dispatchNext_cases t
      rw [answer]
      generalize t.dispatchNext = outcome at hcases ⊢
      cases hcases with
      | accepted hpending _ => rw [hpending]; rfl
      | _ => rfl

theorem scriptError_ne_queueFull (error : BatchValidationError) :
    scriptError error ≠ .QueueFull := by
  rw [scriptError]
  split_ifs <;> decide

theorem enqueue_full_iff (t : QueueSession ι ω) (batch : InputBatch) :
    (t.answer (.op (.enqueue batch))).1 = .enqueued (.error .QueueFull) ↔
      t.queue.pending.length = t.queue.capacity := by
  have hcases := enqueue_cases t batch
  rw [answer]
  generalize t.enqueue batch = outcome at hcases ⊢
  cases hcases with
  | full hfull => simp [hfull]
  | refused hroom _ => simp [hroom, scriptError_ne_queueFull]
  | queued hroom _ => simp [hroom]

/-- A dispatch offers nothing but the oldest batch. -/
theorem dispatchNext_offers {t : QueueSession ι (Recorded ι ω)} (h : t.world.trace = [])
    {receiver : ι} {batch : InputBatch}
    (hoffer : (receiver, batch) ∈ offersOf (t.answer (.op .dispatchNext)).2.world.trace) :
    t.queue.pending.head? = some batch := by
  have hcases := dispatchNext_cases t
  rw [answer] at hoffer
  generalize t.dispatchNext = outcome at hcases hoffer
  cases hcases with
  | notStarted _ => simp [h, offersOf] at hoffer
  | failed _ _ => simp [h, IInputReceiver.sourceFailed, offersOf, FakeEvent.offered?] at hoffer
  | empty _ => simp [h, offersOf] at hoffer
  | accepted hpending hanswer =>
    obtain ⟨-, rfl⟩ := Prod.mk.inj hanswer
    simp [h, offersOf, FakeEvent.offered?] at hoffer
    simp [hpending, hoffer]
  | busy hpending hanswer =>
    obtain ⟨-, rfl⟩ := Prod.mk.inj hanswer
    simp [h, offersOf, FakeEvent.offered?] at hoffer
    simp [hpending, hoffer]
  | rejected hpending hanswer =>
    obtain ⟨-, rfl⟩ := Prod.mk.inj hanswer
    simp [h, offersOf, FakeEvent.offered?] at hoffer
    simp [hpending, hoffer]

/-- A batch that passes the check is taken while there is room. -/
theorem enqueue_taken {t : QueueSession ι ω} {batch : InputBatch} {next : DeliveryState}
    (hroom : t.queue.pending.length < t.queue.capacity)
    (hvalid : validateBatch batch t.queue.capabilities t.queue.script = .ok next) :
    (t.answer (.op (.enqueue batch))).1 = .enqueued (.ok ()) := by
  have hcases := enqueue_cases t batch
  rw [answer]
  generalize t.enqueue batch = outcome at hcases ⊢
  cases hcases with
  | full hfull => exact absurd hfull hroom.ne
  | refused _ hrefused =>
    rw [hvalid] at hrefused
    cases hrefused
  | queued _ _ => rfl

/-- A dispatch offers the oldest batch to the receiver, and to nobody else. -/
theorem dispatchNext_serves {t : QueueSession ι (Recorded ι ω)} {receiver : ι} {batch : InputBatch}
    (hreceiver : t.queue.receiver = some receiver) (hfail : t.queue.failNext = false)
    (hbatch : t.queue.pending.head? = some batch) :
    (t.answer (.op .dispatchNext)).2.world.trace = t.world.trace ++
      [.receive receiver batch (IInputReceiver.receive receiver batch t.world.world).1] := by
  obtain ⟨rest, hpending⟩ := List.head?_eq_some_iff.mp hbatch
  rw [answer, dispatchNext, hreceiver, hpending]
  simp only [hfail, Bool.false_eq_true, if_false, IInputReceiver.receive]
  cases (IInputReceiver.receive receiver batch t.world.world).1 with
  | Accepted => rfl
  | Busy => rfl
  | Rejected => rfl

theorem dispatchNext_accepted {t : QueueSession ι ω} {receiver : ι} {batch : InputBatch}
    (hreceiver : t.queue.receiver = some receiver) (hfail : t.queue.failNext = false)
    (hbatch : t.queue.pending.head? = some batch)
    (haccepted : (IInputReceiver.receive receiver batch t.world).1 = .Accepted) :
    (t.answer (.op .dispatchNext)).1 = .dispatched (.ok ()) := by
  obtain ⟨rest, hpending⟩ := List.head?_eq_some_iff.mp hbatch
  rw [answer, dispatchNext, hreceiver, hpending]
  simp only [hfail, Bool.false_eq_true, if_false]
  rcases hanswer : IInputReceiver.receive receiver batch t.world with ⟨result, world⟩
  rw [hanswer] at haccepted
  obtain rfl : result = .Accepted := haccepted
  rfl

end QueueSession

namespace Session
variable {s : Session ι ω}

/-- The session with the calls to the receivers written down from here on. -/
def recorded (s : Session ι ω) : Session ι (Recorded ι ω) :=
  { source := s.source, world := { world := s.world } }

/-- What the receivers see of the given calls. -/
def receiverCalls (s : Session ι ω) (calls : List (FakeCall ι)) : List (FakeEvent ι) :=
  (Machine.after answer s.recorded calls).world.trace

/-- A source that serves the waiting batches as a first-in first-out list of copies. -/
structure ServesFifo (capacity : Nat) (s : Session ι ω) (waiting : List InputBatch) : Prop where
  count : ∃ n, (s.answer .queuedBatchCount).1 = .counted n ∧ n.toNat = waiting.length
  contents : s.source.batches = waiting
  oldest : ∀ receiver batch, (receiver, batch) ∈ offersOf (s.receiverCalls [.op .dispatchNext]) →
    waiting.head? = some batch
  appends : ∀ batch, waiting <+: (s.answer (.op (.enqueue batch))).2.source.batches
  refused : ∀ batch error, (s.answer (.op (.enqueue batch))).1 = .enqueued (.error error) →
    (s.answer (.op (.enqueue batch))).2.source.batches = waiting
  busy : (s.answer (.op .dispatchNext)).1 = .dispatched (.error .ReceiverBusy) →
    (s.answer (.op .dispatchNext)).2.source.batches = waiting
  full : ∀ batch, (s.answer (.op (.enqueue batch))).1 = .enqueued (.error .QueueFull) ↔
    waiting.length = capacity
  takes : ∀ batch next, waiting.length < capacity →
    validateBatch batch s.source.capabilities s.source.script = .ok next →
      (s.answer (.op (.enqueue batch))).1 = .enqueued (.ok ()) ∧
        (s.answer (.op (.enqueue batch))).2.source.batches = waiting ++ [batch]
  serves : ∀ receiver batch, s.source.receiver = some receiver → s.source.failNext = false →
    waiting.head? = some batch →
      s.receiverCalls [.op .dispatchNext] =
        [.receive receiver batch (IInputReceiver.receive receiver batch s.world).1]
  accepted : ∀ receiver batch, s.source.receiver = some receiver → s.source.failNext = false →
    waiting.head? = some batch →
    (IInputReceiver.receive receiver batch s.world).1 = .Accepted →
      (s.answer (.op .dispatchNext)).1 = .dispatched (.ok ()) ∧
        (s.answer (.op .dispatchNext)).2.source.batches = waiting.tail

theorem batches_answer (h : s.source.WellFormed) (call : FakeCall ι) :
    (s.answer call).2.source.batches = settle s.source.batches (call, (s.answer call).1) := by
  obtain ⟨hsame, -, hmodel⟩ := answer_models h call
  have hpending := s.model.pending_answer call
  rw [hmodel, ← hsame] at hpending
  exact hpending

theorem settle_enqueue (waiting : List InputBatch) (batch : InputBatch) (result : FakeResult) :
    waiting <+: settle waiting ((.op (.enqueue batch) : FakeCall ι), result) := by
  cases result with
  | enqueued result =>
    cases result with
    | ok _ => exact List.prefix_append _ _
    | error _ => exact List.prefix_refl _
  | _ => exact List.prefix_refl _

/-- What serves the list in one state. -/
theorem servesFifo_of_wellFormed (h : s.source.WellFormed) :
    ServesFifo s.source.queueCapacity.toNat s s.source.batches where
  count := ⟨s.source.queueSize, rfl, (FakeInputSource.batches_length _).symm⟩
  contents := rfl
  oldest receiver batch hoffer := by
    obtain ⟨-, -, hmodel⟩ := answer_models (s := s.recorded) h (.op .dispatchNext)
    have hoffered : (receiver, batch) ∈
        offersOf (s.recorded.model.answer (.op .dispatchNext)).2.world.trace := by
      rw [hmodel]
      exact hoffer
    exact QueueSession.dispatchNext_offers rfl hoffered
  appends batch := by
    rw [batches_answer h]
    exact settle_enqueue _ _ _
  refused batch error hresult := by
    rw [batches_answer h, hresult]
    rfl
  busy hresult := by
    rw [batches_answer h, hresult]
    rfl
  full batch := by
    rw [(enqueue_models h batch).1]
    exact s.model.enqueue_full_iff batch
  takes batch next hroom hvalid := by
    have hresult : (s.answer (.op (.enqueue batch))).1 = .enqueued (.ok ()) := by
      rw [(enqueue_models h batch).1]
      exact QueueSession.enqueue_taken hroom hvalid
    refine ⟨hresult, ?_⟩
    rw [batches_answer h, hresult]
    rfl
  serves receiver batch hreceiver hfail hbatch := by
    obtain ⟨-, -, hmodel⟩ := answer_models (s := s.recorded) h (.op .dispatchNext)
    have htrace : (s.recorded.model.answer (.op .dispatchNext)).2.world.trace = _ :=
      QueueSession.dispatchNext_serves hreceiver hfail hbatch
    rw [hmodel] at htrace
    exact htrace
  accepted receiver batch hreceiver hfail hbatch haccepted := by
    have hresult : (s.answer (.op .dispatchNext)).1 = .dispatched (.ok ()) := by
      rw [(answer_models h (.op .dispatchNext)).1]
      exact QueueSession.dispatchNext_accepted hreceiver hfail hbatch haccepted
    refine ⟨hresult, ?_⟩
    rw [batches_answer h, hresult]
    rfl

/-- What every call keeps: the ring is one, it holds what the calls and results so far say, and
the limit is that of the descriptor. -/
structure HoldsWaiting (capacity : Nat) (log : List (FakeCall ι × FakeResult))
    (s : Session ι ω) : Prop where
  wellFormed : s.source.WellFormed
  batches : s.source.batches = waiting log
  capacity : s.source.queueCapacity.toNat = capacity

theorem HoldsWaiting.answer {capacity : Nat} {log : List (FakeCall ι × FakeResult)}
    (h : HoldsWaiting capacity log s) (call : FakeCall ι) :
    HoldsWaiting capacity (log ++ [(call, (s.answer call).1)]) (s.answer call).2 := by
  obtain ⟨-, hwf, hmodel⟩ := answer_models h.wellFormed call
  have hbounds := s.model.bounds_answer call
  rw [hmodel] at hbounds
  refine ⟨hwf, ?_, (congrArg Prod.snd hbounds).trans h.capacity⟩
  rw [waiting_concat, ← h.batches]
  exact batches_answer h.wellFormed call

omit [IInputReceiver ι ω] in
theorem HoldsWaiting.of_create {memory : Memory} {descriptor : FakeInputSourceDescriptor}
    {source : FakeInputSource ι} (h : FakeInputSource.create memory descriptor = .ok source)
    (world : ω) :
    HoldsWaiting descriptor.maximumQueuedBatches.toNat [] { source := source, world := world } := by
  obtain ⟨hwf, hmodel⟩ := FakeInputSource.WellFormed.of_create h
  exact ⟨hwf, congrArg ScriptQueue.pending hmodel, congrArg ScriptQueue.capacity hmodel⟩

/-- For every source that Create returns, every order of calls and whatever the receivers answer,
the ring and the shared array behave as the list of the batches enqueued and neither accepted nor
discarded: all results and all calls of receivers are those of the list, empty at first. -/
theorem serves_fifo {memory : Memory} {descriptor : FakeInputSourceDescriptor}
    {source : FakeInputSource ι} (h : FakeInputSource.create memory descriptor = .ok source)
    (world : ω) (calls : List (FakeCall ι)) :
    let s : Session ι ω := { source := source, world := world }
    let empty : ScriptQueue ι :=
      { capabilities := descriptor.capabilities
        capacity := descriptor.maximumQueuedBatches.toNat }
    let fifo : QueueSession ι ω := { queue := empty, world := world }
    let recorded : QueueSession ι (Recorded ι ω) := { queue := empty, world := { world := world } }
    Machine.answers answer s calls = Machine.answers QueueSession.answer fifo calls ∧
      s.receiverCalls calls = (Machine.after QueueSession.answer recorded calls).world.trace ∧
      ServesFifo descriptor.maximumQueuedBatches.toNat (Machine.after answer s calls)
        (waiting (Machine.log answer s calls)) := by
  intro s empty fifo recorded
  obtain ⟨hwf, hmodel⟩ := FakeInputSource.WellFormed.of_create h
  have hfifo : s.model = fifo := congrArg (QueueSession.mk · world) hmodel
  have hrecorded : s.recorded.model = recorded := congrArg (QueueSession.mk · _) hmodel
  have hholds := Machine.invariant answer (HoldsWaiting descriptor.maximumQueuedBatches.toNat)
    (HoldsWaiting.of_create h world) (fun _ _ call hpast => hpast.answer call) calls
  refine ⟨?_, ?_, ?_⟩
  · rw [← hfifo]
    exact answer_alike.answers ⟨hwf, rfl⟩ calls
  · obtain ⟨-, hafter⟩ := answer_alike.after (s := s.recorded) ⟨hwf, rfl⟩ calls
    rw [← hrecorded, hafter]
    rfl
  · rw [← hholds.batches, ← hholds.capacity]
    exact servesFifo_of_wellFormed hholds.wellFormed

/-- Room for two batches of one sample. -/
def twoBatches : FakeInputSourceDescriptor :=
  { capabilities := { maximumBatchSamples := 1 }, maximumQueuedBatches := 2 }

theorem twoBatches_created :
    FakeInputSource.create (ι := Unit) {} twoBatches = .ok (.allocate twoBatches) := by
  rfl

/-- The batch of the given number in a contact of three. -/
def numberedBatch (number : UInt64) (phase : ContactPhase) : InputBatch :=
  { contact := ⟨1⟩, batchOrdinal := number, phase := phase,
    samples := [{ id := ⟨number⟩, sequence := number }] }

/-- The third batch goes to the slot of the first, behind one that the receiver is busy for. -/
def wrappingCalls : List (FakeCall Unit) :=
  [.op (.start ()), .op (.enqueue (numberedBatch 1 .Begin)), .op .dispatchNext,
   .op (.enqueue (numberedBatch 2 .Update)), .op .dispatchNext,
   .op (.enqueue (numberedBatch 3 .End))]

/-- The second offer is answered with Busy. -/
def busySecond : Answers := { answer := fun offer => if offer = 1 then .Busy else .Accepted }

/-- The second batch still waits in the second slot, the third one behind it in the first, and the
next dispatch offers the second. -/
theorem serves_fifo_wrapped :
    let s : Session Unit Answers := { source := .allocate twoBatches, world := busySecond }
    let last := Machine.after answer s wrappingCalls
    waiting (Machine.log answer s wrappingCalls) =
        [numberedBatch 2 .Update, numberedBatch 3 .End] ∧
      last.source.queueHead = 1 ∧ last.source.queueSize = 2 ∧
      last.receiverCalls [.op .dispatchNext] =
        [.receive () (numberedBatch 2 .Update) .Accepted] := by
  intro s last
  have hwaiting : waiting (Machine.log answer s wrappingCalls) =
      [numberedBatch 2 .Update, numberedBatch 3 .End] := by decide +kernel
  obtain ⟨-, -, hserves⟩ := serves_fifo twoBatches_created busySecond wrappingCalls
  refine ⟨hwaiting, by decide +kernel, by decide +kernel, ?_⟩
  have hoffered := hserves.serves () (numberedBatch 2 .Update) (by decide +kernel)
    (by decide +kernel) (by rw [hwaiting]; rfl)
  have hanswer :
      (IInputReceiver.receive () (numberedBatch 2 .Update) last.world).1 = .Accepted := by
    decide +kernel
  rw [hoffered, hanswer]

end Session
end LightPhi.Fake
