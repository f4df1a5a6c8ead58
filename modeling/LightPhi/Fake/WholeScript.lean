import LightPhi.Fake.Fifo
import LightPhi.Input.DeliveryHistory

/-! Enqueue against the whole script. The source checks a batch against the state its script has
left; the answer is nevertheless that of the delivery rules over everything scripted since the
script was last forgotten. -/
namespace LightPhi.Fake
open Base Input
variable {ι ω : Type*}

/-- What one call does to the script: a batch that is taken continues it, and Stop, an injected
failure and a rejection forget it. -/
def write (script : List InputBatch) : FakeCall ι × FakeResult → List InputBatch
  | (.op (.enqueue batch), .enqueued (.ok _)) => script ++ [batch]
  | (.op .dispatchNext, .dispatched (.error .ReceiverRejected)) => []
  | (.op .dispatchNext, .dispatched (.error .BackendFailure)) => []
  | (.op .stop, _) => []
  | _ => script

/-- Everything scripted since the script was last forgotten, delivered or not. -/
def scriptOf (log : List (FakeCall ι × FakeResult)) : List InputBatch := log.foldl write []

@[simp] theorem scriptOf_concat (log : List (FakeCall ι × FakeResult))
    (entry : FakeCall ι × FakeResult) :
    scriptOf (log ++ [entry]) = write (scriptOf log) entry := by
  simp [scriptOf]

/-- A list whose script state is that of the whole script, of which the last batches wait. -/
structure Scripted (script : List InputBatch) (q : ScriptQueue ι) : Prop where
  valid : validateStream q.capabilities {} script = .ok q.script
  pending : q.pending <:+ script

theorem scripted_nil {q : ScriptQueue ι} (hscript : q.script = {}) (hpending : q.pending = []) :
    Scripted [] q := by
  constructor
  · rw [hscript]
    rfl
  · exact hpending ▸ List.suffix_rfl

variable [IInputReceiver ι ω]

namespace QueueSession
variable {script : List InputBatch} {t : QueueSession ι ω}

theorem Scripted.enqueue (h : Scripted script t.queue) (batch : InputBatch) :
    Scripted (write script
      ((.op (.enqueue batch) : FakeCall ι), (t.answer (.op (.enqueue batch))).1))
      (t.answer (.op (.enqueue batch))).2.queue := by
  have hcases := enqueue_cases t batch
  rw [answer]
  generalize t.enqueue batch = outcome at hcases ⊢
  cases hcases with
  | full | refused => exact h
  | queued hroom hvalid =>
    refine ⟨?_, ?_⟩
    · exact (foldlM_concat_eq_ok _ _ _ _ _).mpr ⟨_, h.valid, hvalid⟩
    · obtain ⟨earlier, hearlier⟩ := h.pending
      refine ⟨earlier, ?_⟩
      rw [← List.append_assoc, hearlier]
      rfl

theorem Scripted.dispatchNext (h : Scripted script t.queue) :
    Scripted (write script ((.op .dispatchNext : FakeCall ι), (t.answer (.op .dispatchNext)).1))
      (t.answer (.op .dispatchNext)).2.queue := by
  have hcases := dispatchNext_cases t
  rw [answer]
  generalize t.dispatchNext = outcome at hcases ⊢
  cases hcases with
  | notStarted | empty | busy => exact h
  | failed | rejected => exact scripted_nil rfl rfl
  | @accepted receiver batch rest world hpending =>
    refine ⟨h.valid, ?_⟩
    have hrest : rest <:+ t.queue.pending := by
      rw [hpending]
      exact List.suffix_cons batch rest
    exact hrest.trans h.pending

/-- Every call keeps the script and its state together. -/
theorem Scripted.answer (h : Scripted script t.queue) (call : FakeCall ι) :
    Scripted (write script (call, (t.answer call).1)) (t.answer call).2.queue := by
  cases call with
  | capabilities | queuedBatchCount => exact h
  | op op =>
    cases op with
    | start receiver =>
      rw [QueueSession.answer]
      split_ifs
      · exact h
      · exact ⟨h.valid, h.pending⟩
    | stop => exact scripted_nil rfl rfl
    | enqueue batch => exact Scripted.enqueue h batch
    | failNext => exact ⟨h.valid, h.pending⟩
    | dispatchNext => exact Scripted.dispatchNext h

end QueueSession

namespace Session
variable {s : Session ι ω}

/-- A source that takes exactly what continues its script. -/
structure ContinuesScript (C : InputSourceCapabilities) (capacity : Nat) (s : Session ι ω)
    (script waiting : List InputBatch) : Prop where
  rules : DeliveryRules C script
  suffix : waiting <:+ script
  takes : ∀ batch, (s.answer (.op (.enqueue batch))).1 = .enqueued (.ok ()) ↔
    waiting.length < capacity ∧ DeliveryRules C (script ++ [batch])
  names : ∀ batch error, (s.answer (.op (.enqueue batch))).1 = .enqueued (.error error) →
    error = .QueueFull ∧ waiting.length = capacity ∨
      ∃ offence, validateStream C {} (script ++ [batch]) = .error offence ∧
        error = scriptError offence

/-- The source as its calls and their results describe it. -/
structure HoldsScript (C : InputSourceCapabilities) (capacity : Nat)
    (log : List (FakeCall ι × FakeResult)) (s : Session ι ω) : Prop where
  holds : HoldsWaiting capacity log s
  capabilities : s.source.capabilities = C
  scripted : Scripted (scriptOf log) s.source.model

theorem HoldsScript.answer {C : InputSourceCapabilities} {capacity : Nat}
    {log : List (FakeCall ι × FakeResult)} (h : HoldsScript C capacity log s)
    (call : FakeCall ι) :
    HoldsScript C capacity (log ++ [(call, (s.answer call).1)]) (s.answer call).2 := by
  obtain ⟨hsame, -, hmodel⟩ := answer_models h.holds.wellFormed call
  have hbounds := s.model.bounds_answer call
  have hscripted := QueueSession.Scripted.answer (t := s.model) h.scripted call
  rw [hmodel] at hbounds hscripted
  refine ⟨h.holds.answer call, (congrArg Prod.fst hbounds).trans h.capabilities, ?_⟩
  rw [scriptOf_concat, hsame]
  exact hscripted

/-- A script and one more batch, checked as a whole. -/
theorem validateStream_concat {C : InputSourceCapabilities} {script : List InputBatch}
    {state : DeliveryState} (h : validateStream C {} script = .ok state) (batch : InputBatch) :
    validateStream C {} (script ++ [batch]) = validateBatch batch C state := by
  rw [validateStream] at h ⊢
  rw [List.foldlM_append, h]
  exact bind_pure (validateBatch batch C state)

theorem HoldsScript.continuesScript {C : InputSourceCapabilities} {capacity : Nat}
    {log : List (FakeCall ι × FakeResult)} (h : HoldsScript C capacity log s) :
    ContinuesScript C capacity s (scriptOf log) (waiting log) := by
  have hstate : validateStream C {} (scriptOf log) = .ok s.source.script := by
    rw [← h.capabilities]
    exact h.scripted.valid
  have hbatches : s.model.queue.pending = waiting log := h.holds.batches
  have hcapacity : s.model.queue.capacity = capacity := h.holds.capacity
  have hwhole (batch : InputBatch) : validateStream C {} (scriptOf log ++ [batch]) =
      validateBatch batch s.model.queue.capabilities s.model.queue.script := by
    rw [validateStream_concat hstate, ← h.capabilities]
    rfl
  have hlength : (waiting log).length ≤ capacity := by
    rw [← h.holds.batches, ← h.holds.capacity, FakeInputSource.batches_length]
    exact h.holds.wellFormed.ring.size
  have hrules (batch : InputBatch) : DeliveryRules C (scriptOf log ++ [batch]) ↔
      ∃ next, validateBatch batch s.model.queue.capabilities s.model.queue.script = .ok next := by
    rw [← hwhole]
    simp [validateStream_eq_ok]
  have hsuffix : s.model.queue.pending <:+ scriptOf log := h.scripted.pending
  rw [hbatches] at hsuffix
  refine ⟨((validateStream_eq_ok _ _ _).mp hstate).1, hsuffix, fun batch => ?_,
    fun batch error => ?_⟩
  all_goals
    have hcases := QueueSession.enqueue_cases s.model batch
    rw [(enqueue_models h.holds.wellFormed batch).1, QueueSession.answer]
    generalize s.model.enqueue batch = outcome at hcases ⊢
  · rw [hrules]
    cases hcases with
    | full hfull =>
      rw [hbatches, hcapacity] at hfull
      simp [hfull]
    | refused hroom hvalid => simp [hvalid]
    | queued hroom hvalid =>
      rw [hbatches, hcapacity] at hroom
      simp only [hvalid, true_iff]
      exact ⟨by omega, _, rfl⟩
  · intro hanswer
    cases hcases with
    | full hfull =>
      rw [hbatches, hcapacity] at hfull
      exact .inl ⟨(Except.error.inj (FakeResult.enqueued.inj hanswer)).symm, hfull⟩
    | @refused offence hroom hvalid =>
      refine .inr ⟨offence, ?_, (Except.error.inj (FakeResult.enqueued.inj hanswer)).symm⟩
      rw [hwhole, hvalid]
    | queued hroom hvalid => simp at hanswer

/-- For every source that Create returns, every order of calls and whatever the receivers answer:
what was scripted since the last reset obeys the delivery rules, and Enqueue takes a batch if and
only if there is room and the whole script with the batch obeys them. -/
theorem takes_continuations {memory : Memory} {descriptor : FakeInputSourceDescriptor}
    {source : FakeInputSource ι} (h : FakeInputSource.create memory descriptor = .ok source)
    (world : ω) (calls : List (FakeCall ι)) :
    ContinuesScript descriptor.capabilities descriptor.maximumQueuedBatches.toNat
      (Machine.after answer { source := source, world := world } calls)
      (scriptOf (Machine.log answer { source := source, world := world } calls))
      (waiting (Machine.log answer { source := source, world := world } calls)) := by
  have hfirst : HoldsScript descriptor.capabilities descriptor.maximumQueuedBatches.toNat []
      ({ source := source, world := world } : Session ι ω) := by
    obtain ⟨-, hmodel⟩ := FakeInputSource.WellFormed.of_create h
    refine ⟨HoldsWaiting.of_create h world, congrArg ScriptQueue.capabilities hmodel, ?_⟩
    exact scripted_nil (congrArg ScriptQueue.script hmodel) (congrArg ScriptQueue.pending hmodel)
  exact (Machine.invariant answer _ hfirst (fun _ _ call hpast => hpast.answer call)
    calls).continuesScript

theorem takes_continuations_wrapped :
    ContinuesScript twoBatches.capabilities 2
      (Machine.after answer { source := .allocate twoBatches, world := busySecond } wrappingCalls)
      (scriptOf (Machine.log answer { source := .allocate twoBatches, world := busySecond }
        wrappingCalls))
      (waiting (Machine.log answer { source := .allocate twoBatches, world := busySecond }
        wrappingCalls)) :=
  takes_continuations twoBatches_created _ _

end Session
end LightPhi.Fake
