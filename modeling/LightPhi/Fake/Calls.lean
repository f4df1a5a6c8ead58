import LightPhi.Base.Machine
import LightPhi.Fake.Refinement

/-! The source as a machine that answers its caller, and the same machine over the list of waiting
batches. -/
namespace LightPhi.Fake
open Base Input

/-- A public call to a source: one that may change it, or a question. -/
inductive FakeCall (ι : Type*) where
  | op (op : FakeOp ι)
  | capabilities
  | queuedBatchCount
  deriving DecidableEq, Repr

/-- What a call returns to its caller. -/
inductive FakeResult where
  | started (result : Except InputSourceError Unit)
  | stopped
  | enqueued (result : Except FakeSourceError Unit)
  | failNext
  | dispatched (result : Except DispatchError Unit)
  | capabilities (capabilities : InputSourceCapabilities)
  | counted (count : UInt32)
  deriving DecidableEq

variable {ι ω : Type*}

/-- What Create fixes for good. -/
def ScriptQueue.bounds (q : ScriptQueue ι) : InputSourceCapabilities × Nat :=
  (q.capabilities, q.capacity)

/-- The waiting batches and the world of the receivers. -/
structure QueueSession (ι ω : Type*) where
  queue : ScriptQueue ι
  world : ω

namespace QueueSession

def enqueue (batch : InputBatch) (s : QueueSession ι ω) :
    Except FakeSourceError Unit × QueueSession ι ω :=
  if s.queue.pending.length = s.queue.capacity then (.error .QueueFull, s)
  else match validateBatch batch s.queue.capabilities s.queue.script with
    | .error error => (.error (scriptError error), s)
    | .ok next =>
      (.ok (), { s with queue := { s.queue with
        pending := s.queue.pending ++ [batch], script := next } })

/-- How an enqueued batch is answered. -/
inductive Enqueues (s : QueueSession ι ω) (batch : InputBatch) :
    Except FakeSourceError Unit × QueueSession ι ω → Prop
  | full (h : s.queue.pending.length = s.queue.capacity) : Enqueues s batch (.error .QueueFull, s)
  | refused {error} (h : s.queue.pending.length ≠ s.queue.capacity)
      (hvalid : validateBatch batch s.queue.capabilities s.queue.script = .error error) :
      Enqueues s batch (.error (scriptError error), s)
  | queued {next} (h : s.queue.pending.length ≠ s.queue.capacity)
      (hvalid : validateBatch batch s.queue.capabilities s.queue.script = .ok next) :
      Enqueues s batch (.ok (), { s with queue := { s.queue with
        pending := s.queue.pending ++ [batch], script := next } })

theorem enqueue_cases (s : QueueSession ι ω) (batch : InputBatch) :
    Enqueues s batch (s.enqueue batch) := by
  rw [enqueue]
  split_ifs with hfull
  · exact .full hfull
  · cases hvalid : validateBatch batch s.queue.capabilities s.queue.script with
    | error error => exact .refused hfull hvalid
    | ok next => exact .queued hfull hvalid

end QueueSession

variable [IInputReceiver ι ω]

/-- One public call to the source. -/
def Session.answer (s : Session ι ω) : FakeCall ι → FakeResult × Session ι ω
  | .op (.start receiver) => (.started (s.start receiver).1, (s.start receiver).2)
  | .op .stop => (.stopped, s.stop)
  | .op (.enqueue batch) =>
    match s.source.enqueue batch with
    | .ok source => (.enqueued (.ok ()), { s with source := source })
    | .error error => (.enqueued (.error error), s)
  | .op .failNext => (.failNext, { s with source := s.source.setFailNext })
  | .op .dispatchNext => (.dispatched s.dispatchNext.1, s.dispatchNext.2)
  | .capabilities => (.capabilities s.source.capabilities, s)
  | .queuedBatchCount => (.counted s.source.queuedBatchCount, s)

namespace QueueSession

def stop (s : QueueSession ι ω) : QueueSession ι ω :=
  let world := match s.queue.receiver with
    | some receiver =>
      if s.queue.deliveredContact.value ≠ 0 then
        (IInputReceiver.receive receiver s.queue.cancelBatch s.world).2
      else s.world
    | none => s.world
  { queue := s.queue.reset, world := world }

def dispatchNext (s : QueueSession ι ω) : Except DispatchError Unit × QueueSession ι ω :=
  match s.queue.receiver with
  | none => (.error .NotStarted, s)
  | some receiver =>
    if s.queue.failNext then
      (.error .BackendFailure,
        { queue := s.queue.reset,
          world := IInputReceiver.sourceFailed receiver .BackendFailure s.world })
    else match s.queue.pending with
      | [] => (.error .QueueEmpty, s)
      | batch :: rest =>
        match IInputReceiver.receive receiver batch s.world with
        | (.Accepted, world) => (.ok (), { queue := s.queue.delivered batch rest, world := world })
        | (.Busy, world) => (.error .ReceiverBusy, { s with world := world })
        | (.Rejected, world) =>
          (.error .ReceiverRejected, { queue := s.queue.abandon, world := world })

/-- One call, answered from the list. -/
def answer (s : QueueSession ι ω) : FakeCall ι → FakeResult × QueueSession ι ω
  | .op (.start receiver) =>
    if s.queue.receiver.isSome then (.started (.error .AlreadyStarted), s)
    else (.started (.ok ()), { s with queue := { s.queue with receiver := some receiver } })
  | .op .stop => (.stopped, s.stop)
  | .op (.enqueue batch) => (.enqueued (s.enqueue batch).1, (s.enqueue batch).2)
  | .op .failNext => (.failNext, { s with queue := { s.queue with failNext := true } })
  | .op .dispatchNext => (.dispatched s.dispatchNext.1, s.dispatchNext.2)
  | .capabilities => (.capabilities s.queue.capabilities, s)
  | .queuedBatchCount => (.counted (UInt32.ofNat s.queue.pending.length), s)

/-- How a dispatch can go. -/
inductive Dispatches (s : QueueSession ι ω) : Except DispatchError Unit × QueueSession ι ω → Prop
  | notStarted (h : s.queue.receiver = none) : Dispatches s (.error .NotStarted, s)
  | failed {receiver : ι} (h : s.queue.receiver = some receiver) (hfail : s.queue.failNext) :
      Dispatches s (.error .BackendFailure,
        { queue := s.queue.reset,
          world := IInputReceiver.sourceFailed receiver .BackendFailure s.world })
  | empty (h : s.queue.pending = []) : Dispatches s (.error .QueueEmpty, s)
  | accepted {receiver : ι} {batch rest world} (h : s.queue.pending = batch :: rest)
      (hanswer : IInputReceiver.receive receiver batch s.world = (.Accepted, world)) :
      Dispatches s (.ok (), { queue := s.queue.delivered batch rest, world := world })
  | busy {receiver : ι} {batch rest world} (h : s.queue.pending = batch :: rest)
      (hanswer : IInputReceiver.receive receiver batch s.world = (.Busy, world)) :
      Dispatches s (.error .ReceiverBusy, { s with world := world })
  | rejected {receiver : ι} {batch rest world} (h : s.queue.pending = batch :: rest)
      (hanswer : IInputReceiver.receive receiver batch s.world = (.Rejected, world)) :
      Dispatches s (.error .ReceiverRejected, { queue := s.queue.abandon, world := world })

theorem dispatchNext_cases (s : QueueSession ι ω) : Dispatches s s.dispatchNext := by
  rw [dispatchNext]
  cases hreceiver : s.queue.receiver with
  | none => exact .notStarted hreceiver
  | some receiver =>
    simp only
    split_ifs with hfail
    · exact .failed hreceiver hfail
    · cases hpending : s.queue.pending with
      | nil => exact .empty hpending
      | cons batch rest =>
        simp only
        rcases hanswer : IInputReceiver.receive receiver batch s.world with ⟨result, world⟩
        cases result with
        | Accepted => exact .accepted hpending hanswer
        | Busy => exact .busy hpending hanswer
        | Rejected => exact .rejected hpending hanswer

/-- No call changes the bounds of the list. -/
theorem bounds_answer (t : QueueSession ι ω) (call : FakeCall ι) :
    (t.answer call).2.queue.bounds = t.queue.bounds := by
  cases call with
  | capabilities => rfl
  | queuedBatchCount => rfl
  | op op =>
    cases op with
    | start receiver =>
      rw [answer]
      split_ifs <;> rfl
    | stop => rfl
    | enqueue batch =>
      have hcases := enqueue_cases t batch
      rw [answer]
      generalize t.enqueue batch = outcome at hcases ⊢
      cases hcases <;> rfl
    | failNext => rfl
    | dispatchNext =>
      have hcases := dispatchNext_cases t
      rw [answer]
      generalize t.dispatchNext = outcome at hcases ⊢
      cases hcases <;> rfl

end QueueSession

namespace Session
open FakeInputSource

/-- The list a source stands for, in the same world. -/
def model (s : Session ι ω) : QueueSession ι ω := { queue := s.source.model, world := s.world }

/-- A source whose ring is one, and the list it stands for. -/
def Models (s : Session ι ω) (t : QueueSession ι ω) : Prop := s.source.WellFormed ∧ t = s.model

section Models
variable {s : Session ι ω}

theorem queuedBatchCount_eq (s : FakeInputSource ι) :
    s.queuedBatchCount = UInt32.ofNat s.model.pending.length := by
  rw [FakeInputSource.model, batches_length, queuedBatchCount, UInt32.ofNat_toNat]

theorem start_models (h : s.source.WellFormed) (receiver : ι) :
    (s.answer (.op (.start receiver))).1 = (s.model.answer (.op (.start receiver))).1 ∧
      Models (s.answer (.op (.start receiver))).2 (s.model.answer (.op (.start receiver))).2 := by
  have hreceiver : s.model.queue.receiver = s.source.receiver := rfl
  simp only [answer, start, QueueSession.answer, hreceiver]
  split_ifs
  · exact ⟨rfl, h, rfl⟩
  · exact ⟨rfl, ⟨h.ring, h.storage, h.offsets, h.counts⟩, rfl⟩

theorem enqueue_models (h : s.source.WellFormed) (batch : InputBatch) :
    (s.answer (.op (.enqueue batch))).1 = (s.model.answer (.op (.enqueue batch))).1 ∧
      Models (s.answer (.op (.enqueue batch))).2 (s.model.answer (.op (.enqueue batch))).2 := by
  have hscript : s.model.queue.script = s.source.script := rfl
  have hcapabilities : s.model.queue.capabilities = s.source.capabilities := rfl
  have hfull : (s.model.queue.pending.length = s.model.queue.capacity) =
      (s.source.queueSize = s.source.queueCapacity) := propext (model_full_iff s.source).symm
  simp only [answer, FakeInputSource.enqueue, QueueSession.answer, QueueSession.enqueue, hscript,
    hcapabilities, hfull]
  split_ifs with hroom
  · exact ⟨rfl, h, rfl⟩
  · cases hvalid : validateBatch batch s.source.capabilities s.source.script with
    | error error => exact ⟨rfl, h, rfl⟩
    | ok next =>
      obtain ⟨hwf, hmodel⟩ := h.queued hroom hvalid
      exact ⟨rfl, hwf, congrArg (QueueSession.mk · s.world) hmodel.symm⟩

theorem dispatchNext_models (h : s.source.WellFormed) :
    s.dispatchNext.1 = s.model.dispatchNext.1 ∧
      Models s.dispatchNext.2 s.model.dispatchNext.2 := by
  have hreceiver : s.model.queue.receiver = s.source.receiver := rfl
  have hfail : s.model.queue.failNext = s.source.failNext := rfl
  simp only [dispatchNext, QueueSession.dispatchNext, hreceiver, hfail]
  cases s.source.receiver with
  | none => exact ⟨rfl, h, rfl⟩
  | some receiver =>
    simp only
    split_ifs with hinjected hempty
    · exact ⟨rfl, wellFormed_reset h, rfl⟩
    · have hpending : s.model.queue.pending = [] := (batches_eq_nil_iff _).mpr hempty
      rw [hpending]
      exact ⟨rfl, h, rfl⟩
    · obtain ⟨hwf, hbatches⟩ := h.pop hempty
      have hpending : s.model.queue.pending =
          readBatch s.source.sampleStorage s.source.front :: s.source.pop.batches := hbatches
      have hworld : s.model.world = s.world := rfl
      rw [hpending]
      simp only [hworld]
      rcases IInputReceiver.receive receiver (readBatch s.source.sampleStorage s.source.front)
        s.world with ⟨result, world⟩
      cases result with
      | Accepted => exact ⟨rfl, ⟨hwf.ring, hwf.storage, hwf.offsets, hwf.counts⟩, rfl⟩
      | Busy => exact ⟨rfl, h, rfl⟩
      | Rejected =>
        exact ⟨rfl, ⟨h.ring.emptied, h.storage, h.offsets, by simp [FakeInputSource.abandon]⟩, rfl⟩

theorem stop_models (h : s.source.WellFormed) : Models s.stop s.model.stop :=
  ⟨wellFormed_reset h, rfl⟩

theorem answer_models (h : s.source.WellFormed) (call : FakeCall ι) :
    (s.answer call).1 = (s.model.answer call).1 ∧
      Models (s.answer call).2 (s.model.answer call).2 := by
  cases call with
  | op op =>
    cases op with
    | start receiver => exact start_models h receiver
    | stop => exact ⟨rfl, stop_models h⟩
    | enqueue batch => exact enqueue_models h batch
    | failNext => exact ⟨rfl, ⟨h.ring, h.storage, h.offsets, h.counts⟩, rfl⟩
    | dispatchNext =>
      obtain ⟨hsame, hnext⟩ := dispatchNext_models h
      exact ⟨congrArg FakeResult.dispatched hsame, hnext⟩
  | capabilities => exact ⟨rfl, h, rfl⟩
  | queuedBatchCount =>
    exact ⟨congrArg FakeResult.counted (queuedBatchCount_eq s.source), h, rfl⟩

/-- No caller and no receiver can tell the ring from the list. -/
theorem answer_alike :
    Machine.Alike (answer (ι := ι) (ω := ω)) QueueSession.answer Models where
  same h call := by
    obtain ⟨hwf, rfl⟩ := h
    exact (answer_models hwf call).1
  next h call := by
    obtain ⟨hwf, rfl⟩ := h
    exact (answer_models hwf call).2

end Models

end Session
end LightPhi.Fake
