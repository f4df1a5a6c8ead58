import LightPhi.Apple.Conversation
import LightPhi.Base.Simulation
import LightPhi.Apple.Translation

/-! The delivery core as an unbounded queue with a limit: what each call does to the list of
waiting deliveries and what its target sees. No ring, and no arithmetic on positions. -/
namespace LightPhi.Apple

structure QueueModel where
  capacity : Nat
  pending : List Delivery := []
  cursor : Cursor := {}
  capabilities : UInt16 := CapturedCapability.Timestamp
  started : Bool := false

namespace QueueModel

/-- Everything waiting and the open contact are forgotten. -/
def cleared (q : QueueModel) : QueueModel := { q with pending := [], cursor := q.cursor.closed }

def stopped (q : QueueModel) : QueueModel := { q.cleared with started := false }

@[simp] theorem cleared_pending (q : QueueModel) : q.cleared.pending = [] := rfl
@[simp] theorem cleared_cursor (q : QueueModel) : q.cleared.cursor = q.cursor.closed := rfl
@[simp] theorem stopped_pending (q : QueueModel) : q.stopped.pending = [] := rfl
@[simp] theorem stopped_cursor (q : QueueModel) : q.stopped.cursor = q.cursor.closed := rfl
@[simp] theorem stopped_started (q : QueueModel) : q.stopped.started = false := rfl

/-- The capability mask once an event was translated; a cancellation carries no values. -/
def maskAfter (q : QueueModel) (event : CapturedEvent) : UInt16 :=
  if event.kind = .Cancel then q.capabilities else observedMask event q.capabilities

/-- Offering from the oldest delivery on: what the target is offered and answers, and the rest. -/
inductive Drains : QueueModel → List CoreEvent → QueueModel → Prop
  | done {q} (h : q.started = false ∨ q.pending = []) : Drains q [] q
  | accepted {q d rest events q'} (hs : q.started) (hq : q.pending = d :: rest)
      (h : Drains { q with pending := rest } events q') :
      Drains q (.receive q.capabilities d .Accepted :: events) q'
  | busy {q d rest} (hs : q.started) (hq : q.pending = d :: rest) :
      Drains q [.receive q.capabilities d .Busy] q
  | rejected {q d rest} (hs : q.started) (hq : q.pending = d :: rest) :
      Drains q [.receive q.capabilities d .Rejected] q.cleared

/-- With a single delivery waiting there is a single offer, and only the queue can change. -/
theorem Drains.of_single {q q' : QueueModel} {d : Delivery} {events : List CoreEvent}
    (hs : q.started) (h : Drains { q with pending := [d] } events q') :
    ∃ decision, events = [.receive q.capabilities d decision] ∧ q'.stopped = q.stopped := by
  cases h with
  | done hdone => simp [hs] at hdone
  | accepted _ hq hrest =>
    obtain ⟨rfl, rfl⟩ := List.cons.inj hq
    cases hrest with
    | done => exact ⟨.Accepted, rfl, rfl⟩
    | accepted _ hq => simp at hq
    | busy _ hq => simp at hq
    | rejected _ hq => simp at hq
  | busy _ hq =>
    obtain ⟨rfl, rfl⟩ := List.cons.inj hq
    exact ⟨.Busy, rfl, rfl⟩
  | rejected _ hq =>
    obtain ⟨rfl, rfl⟩ := List.cons.inj hq
    exact ⟨.Rejected, rfl, rfl⟩

/-- One call. New deliveries take slots below the capacity; which ones does not matter here. -/
inductive Calls : QueueModel → CoreOp → List CoreEvent → QueueModel → Prop
  | start (q) : Calls q .start [.called .start] { q.cleared with started := true }
  | ignored {q event} (h : q.started = false) :
      Calls q (.submit event) [.called (.submit event)] q
  | device {q event} (hs : q.started) (hk : event.kind = .DeviceObserved) :
      Calls q (.submit event) [.called (.submit event)]
        { q with capabilities := event.capabilities ||| CapturedCapability.Timestamp }
  | stray {q event} (hs : q.started) (hk : event.kind ≠ .DeviceObserved)
      (h : (q.cursor.translate event).2 = []) :
      Calls q (.submit event) [.called (.submit event)] q
  | queued {q event new events q'} (hs : q.started) (hk : event.kind ≠ .DeviceObserved)
      (hnew : new.map Delivery.unslotted = (q.cursor.translate event).2)
      (hne : new ≠ []) (hslot : ∀ d ∈ new, d.slot.toNat < q.capacity)
      (hroom : q.pending.length + new.length ≤ q.capacity)
      (hdrain : Drains { q with
        pending := q.pending ++ new
        cursor := (q.cursor.translate event).1
        capabilities := q.maskAfter event } events q') :
      Calls q (.submit event) (.called (.submit event) :: events) q'
  | overflow {q event cursor mask} (hs : q.started) (hk : event.kind ≠ .DeviceObserved)
      (hfull : q.capacity < q.pending.length + (q.cursor.translate event).2.length)
      (hcut : (cursor = q.cursor ∧ mask = q.capabilities) ∨
        (cursor = (q.cursor.translate event).1 ∧ mask = q.maskAfter event)) :
      Calls q (.submit event) [.called (.submit event), .failed .Overflow]
        { q with cursor := cursor, capabilities := mask }.stopped
  | retried {q events q'} (h : Drains q events q') :
      Calls q .retryPending (.called .retryPending :: events) q'
  | cancelled {q decision} (hs : q.started) (ho : q.cursor.contactOpen) :
      Calls q .stop
        [.called .stop, .receive q.capabilities q.cursor.cancellation decision, .stopped] q.stopped
  | closed {q} (h : ¬ (q.started ∧ q.cursor.contactOpen)) :
      Calls q .stop [.called .stop, .stopped] q.stopped

theorem Drains.callsOf_eq {q q' : QueueModel} {events : List CoreEvent}
    (h : Drains q events q') : callsOf events = [] := by
  induction h with
  | done => rfl
  | accepted _ _ _ ih => simpa [callsOf, CoreEvent.call?] using ih
  | busy => rfl
  | rejected => rfl

theorem Calls.callsOf_eq {q q' : QueueModel} {op : CoreOp} {events : List CoreEvent}
    (h : Calls q op events q') : callsOf events = [op] := by
  have hcons (op : CoreOp) (events : List CoreEvent) :
      callsOf (.called op :: events) = op :: callsOf events := by
    simp [callsOf, CoreEvent.call?]
  cases h with
  | queued _ _ _ _ _ _ hd => rw [hcons, hd.callsOf_eq]
  | retried hd => rw [hcons, hd.callsOf_eq]
  | _ => rfl

/-- What a run of calls leaves, each of them allowed where it is made. -/
abbrev Reaches (allowed : List CoreEvent → QueueModel → CoreOp → Prop) (first : QueueModel) :
    List CoreEvent → QueueModel → Prop := Base.Reaches Calls allowed first

/-- A property of trace and queue that one offer preserves, whatever the answer. -/
structure OffersPreserve (inv : List CoreEvent → QueueModel → Prop) : Prop where
  accepted {trace q d rest} (hs : q.started) (hq : q.pending = d :: rest) (h : inv trace q) :
    inv (trace ++ [.receive q.capabilities d .Accepted]) { q with pending := rest }
  busy {trace q d rest} (hs : q.started) (hq : q.pending = d :: rest) (h : inv trace q) :
    inv (trace ++ [.receive q.capabilities d .Busy]) q
  rejected {trace q d rest} (hs : q.started) (hq : q.pending = d :: rest) (h : inv trace q) :
    inv (trace ++ [.receive q.capabilities d .Rejected]) q.cleared

/-- A property that every call preserves as well, up to where it starts to offer. -/
structure CallsPreserve (allowed : List CoreEvent → QueueModel → CoreOp → Prop)
    (inv : List CoreEvent → QueueModel → Prop) : Prop extends OffersPreserve inv where
  start {trace q} (ha : allowed trace q .start) (h : inv trace q) :
    inv (trace ++ [.called .start]) { q.cleared with started := true }
  noted {trace q event} (ha : allowed trace q (.submit event))
    (hn : q.started → event.kind ≠ .DeviceObserved ∧ (q.cursor.translate event).2 = [])
    (h : inv trace q) : inv (trace ++ [.called (.submit event)]) q
  device {trace q event} (ha : allowed trace q (.submit event)) (hs : q.started)
    (hk : event.kind = .DeviceObserved) (h : inv trace q) :
    inv (trace ++ [.called (.submit event)])
      { q with capabilities := event.capabilities ||| CapturedCapability.Timestamp }
  queued {trace q event} {new : List Delivery} (ha : allowed trace q (.submit event))
    (hs : q.started) (hk : event.kind ≠ .DeviceObserved)
    (hnew : new.map Delivery.unslotted = (q.cursor.translate event).2)
    (hne : new ≠ []) (hslot : ∀ d ∈ new, d.slot.toNat < q.capacity)
    (hroom : q.pending.length + new.length ≤ q.capacity) (h : inv trace q) :
    inv (trace ++ [.called (.submit event)]) { q with
      pending := q.pending ++ new
      cursor := (q.cursor.translate event).1
      capabilities := q.maskAfter event }
  overflow {trace q event cursor mask} (ha : allowed trace q (.submit event)) (hs : q.started)
    (hk : event.kind ≠ .DeviceObserved)
    (hfull : q.capacity < q.pending.length + (q.cursor.translate event).2.length)
    (hcut : (cursor = q.cursor ∧ mask = q.capabilities) ∨
      (cursor = (q.cursor.translate event).1 ∧ mask = q.maskAfter event)) (h : inv trace q) :
    inv (trace ++ [.called (.submit event), .failed .Overflow])
      { q with cursor := cursor, capabilities := mask }.stopped
  retried {trace q} (ha : allowed trace q .retryPending) (h : inv trace q) :
    inv (trace ++ [.called .retryPending]) q
  cancelled {trace q decision} (ha : allowed trace q .stop) (hs : q.started)
    (ho : q.cursor.contactOpen) (h : inv trace q) :
    inv (trace ++ [.called .stop, .receive q.capabilities q.cursor.cancellation decision,
      .stopped]) q.stopped
  closed {trace q} (ha : allowed trace q .stop) (hc : ¬ (q.started ∧ q.cursor.contactOpen))
    (h : inv trace q) : inv (trace ++ [.called .stop, .stopped]) q.stopped

section Preservation
variable {allowed : List CoreEvent → QueueModel → CoreOp → Prop}
  {inv : List CoreEvent → QueueModel → Prop}

/-- Fewer runs preserve what more runs do. -/
theorem CallsPreserve.weaken {allowed' : List CoreEvent → QueueModel → CoreOp → Prop}
    (h : CallsPreserve allowed inv)
    (himp : ∀ trace q op, allowed' trace q op → allowed trace q op) :
    CallsPreserve allowed' inv where
  toOffersPreserve := h.toOffersPreserve
  start ha := h.start (himp _ _ _ ha)
  noted ha := h.noted (himp _ _ _ ha)
  device ha := h.device (himp _ _ _ ha)
  queued ha := h.queued (himp _ _ _ ha)
  overflow ha := h.overflow (himp _ _ _ ha)
  retried ha := h.retried (himp _ _ _ ha)
  cancelled ha := h.cancelled (himp _ _ _ ha)
  closed ha := h.closed (himp _ _ _ ha)

theorem Drains.preserves (hinv : OffersPreserve inv) {q q' : QueueModel}
    {trace events : List CoreEvent} (hd : Drains q events q') (h : inv trace q) :
    inv (trace ++ events) q' := by
  induction hd generalizing trace with
  | done => simpa using h
  | accepted hs hq _ ih =>
    rw [List.append_cons]
    exact ih (hinv.accepted hs hq h)
  | busy hs hq => exact hinv.busy hs hq h
  | rejected hs hq => exact hinv.rejected hs hq h

theorem CallsPreserve.preserves (hinv : CallsPreserve allowed inv) :
    Base.Preserves Calls allowed inv := by
  intro trace q op events q' ha hc h
  cases hc with
  | start => exact hinv.start ha h
  | ignored hs => exact hinv.noted ha (by simp [hs]) h
  | device hs hk => exact hinv.device ha hs hk h
  | stray hs hk hn => exact hinv.noted ha (fun _ => ⟨hk, hn⟩) h
  | queued hs hk hnew hne hslot hroom hd =>
    rw [List.append_cons]
    exact hd.preserves hinv.toOffersPreserve (hinv.queued ha hs hk hnew hne hslot hroom h)
  | overflow hs hk hfull hcut => exact hinv.overflow ha hs hk hfull hcut h
  | retried hd =>
    rw [List.append_cons]
    exact hd.preserves hinv.toOffersPreserve (hinv.retried ha h)
  | cancelled hs ho => exact hinv.cancelled ha hs ho h
  | closed hc => exact hinv.closed ha hc h

end Preservation
end QueueModel
end LightPhi.Apple
