import LightPhi.Base.Simulation
import LightPhi.Fake.FakeBackend

/-! The fake source as a list of batches that wait: what each call does to the list and what the
bound receiver sees. No ring, no array, no arithmetic on positions. -/
namespace LightPhi.Fake
open Base Input

inductive FakeOp (ι : Type*) where
  | start (receiver : ι)
  | stop
  | enqueue (batch : InputBatch)
  | failNext
  | dispatchNext
  deriving DecidableEq, Repr

inductive FakeEvent (ι : Type*) where
  | called (op : FakeOp ι)
  | stopped (receiver : Option ι)
  | receive (receiver : ι) (batch : InputBatch) (result : DeliveryResult)
  | sourceFailed (receiver : ι) (error : InputSourceError)
  deriving DecidableEq, Repr

variable {ι : Type*}

def FakeEvent.call? : FakeEvent ι → Option (FakeOp ι)
  | .called op => some op
  | _ => none

def FakeEvent.offered? : FakeEvent ι → Option (ι × InputBatch)
  | .receive receiver batch _ => some (receiver, batch)
  | _ => none

/-- The batches offered and to whom, in order, whatever was answered. -/
def offersOf (trace : List (FakeEvent ι)) : List (ι × InputBatch) :=
  trace.filterMap FakeEvent.offered?

structure ScriptQueue (ι : Type*) where
  capabilities : InputSourceCapabilities
  capacity : Nat
  pending : List InputBatch := []
  receiver : Option ι := none
  failNext : Bool := false
  script : DeliveryState := {}
  deliveredContact : ContactId := {}
  deliveredBatchOrdinal : UInt64 := 0

namespace ScriptQueue

def reset (q : ScriptQueue ι) : ScriptQueue ι :=
  { q with
    pending := []
    receiver := none
    failNext := false
    script := {}
    deliveredContact := {} }

def abandon (q : ScriptQueue ι) : ScriptQueue ι :=
  { q with pending := [], script := {}, deliveredContact := {} }

/-- The oldest batch was accepted. -/
def delivered (batch : InputBatch) (rest : List InputBatch) (q : ScriptQueue ι) : ScriptQueue ι :=
  { q with
    pending := rest
    deliveredContact := if batch.phase.closes then {} else batch.contact
    deliveredBatchOrdinal := batch.batchOrdinal }

def cancelBatch (q : ScriptQueue ι) : InputBatch :=
  { contact := q.deliveredContact, batchOrdinal := q.deliveredBatchOrdinal + 1, phase := .Cancel }

/-- One call, what the receivers see of it, and what it leaves. -/
inductive Calls : ScriptQueue ι → FakeOp ι → List (FakeEvent ι) → ScriptQueue ι → Prop
  | bound {q receiver} (h : q.receiver ≠ none) :
      Calls q (.start receiver) [.called (.start receiver)] q
  | started {q receiver} (h : q.receiver = none) :
      Calls q (.start receiver) [.called (.start receiver)] { q with receiver := some receiver }
  | cancelled {q receiver result} (h : q.receiver = some receiver)
      (hopen : q.deliveredContact.value ≠ 0) :
      Calls q .stop [.called .stop, .receive receiver q.cancelBatch result, .stopped q.receiver]
        q.reset
  | closed {q} (h : q.receiver ≠ none → q.deliveredContact.value = 0) :
      Calls q .stop [.called .stop, .stopped q.receiver] q.reset
  | refused {q batch}
      (h : q.pending.length = q.capacity ∨ ¬ (validateBatch batch q.capabilities q.script).isOk) :
      Calls q (.enqueue batch) [.called (.enqueue batch)] q
  | queued {q batch next} (hroom : q.pending.length < q.capacity)
      (h : validateBatch batch q.capabilities q.script = .ok next) :
      Calls q (.enqueue batch) [.called (.enqueue batch)]
        { q with pending := q.pending ++ [batch], script := next }
  | failNext {q} : Calls q .failNext [.called .failNext] { q with failNext := true }
  | idle {q} (h : q.receiver = none ∨ q.failNext = false ∧ q.pending = []) :
      Calls q .dispatchNext [.called .dispatchNext] q
  | failed {q receiver} (h : q.receiver = some receiver) (hfail : q.failNext) :
      Calls q .dispatchNext [.called .dispatchNext, .sourceFailed receiver .BackendFailure] q.reset
  | accepted {q receiver batch rest} (h : q.receiver = some receiver) (hfail : q.failNext = false)
      (hq : q.pending = batch :: rest) :
      Calls q .dispatchNext [.called .dispatchNext, .receive receiver batch .Accepted]
        (q.delivered batch rest)
  | busy {q receiver batch rest} (h : q.receiver = some receiver) (hfail : q.failNext = false)
      (hq : q.pending = batch :: rest) :
      Calls q .dispatchNext [.called .dispatchNext, .receive receiver batch .Busy] q
  | rejected {q receiver batch rest} (h : q.receiver = some receiver) (hfail : q.failNext = false)
      (hq : q.pending = batch :: rest) :
      Calls q .dispatchNext [.called .dispatchNext, .receive receiver batch .Rejected] q.abandon

theorem Calls.call_eq {q q' : ScriptQueue ι} {op : FakeOp ι} {events : List (FakeEvent ι)}
    (h : Calls q op events q') : events.filterMap FakeEvent.call? = [op] := by
  cases h <;> rfl

end ScriptQueue
end LightPhi.Fake
