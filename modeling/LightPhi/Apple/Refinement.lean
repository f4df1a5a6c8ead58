import LightPhi.Apple.QueueModel
import LightPhi.Base.RingBuffer
import LightPhi.Base.Checked

/-! The delivery core refines the queue model: up to a capacity of 2^31 its ring is a queue, and
every call does to that queue what the model says, with the same calls to the target. -/
namespace LightPhi.Apple
open Base

/-- A target whose conversation with the core is written down. -/
structure Recorded (τ : Type*) where
  target : τ
  trace : List CoreEvent := []

instance {τ : Type*} [IDeliveryTarget τ] : IDeliveryTarget (Recorded τ) where
  receive core delivery recorded :=
    let (decision, target) := IDeliveryTarget.receive core delivery recorded.target
    (decision, { target := target,
                 trace := recorded.trace ++ [.receive core.capabilities delivery decision] })
  failed core failure recorded :=
    { target := IDeliveryTarget.failed core failure recorded.target,
      trace := recorded.trace ++ [.failed failure] }

/-- A target that answers each offer by its number. -/
structure Script where
  answer : Nat → DeliveryDecision
  offers : Nat := 0

instance : IDeliveryTarget Script where
  receive _ _ script := (script.answer script.offers, { script with offers := script.offers + 1 })
  failed _ _ script := script

/-- A target that gives every offer the same answer. -/
def Script.always (decision : DeliveryDecision) : Script := { answer := fun _ => decision }

/-- An event with nothing but its kind. -/
def plainEvent (kind : CapturedEventKind) : CapturedEvent := { kind := kind }

namespace Session
variable {τ : Type*}

def record (event : CoreEvent) (s : Session (Recorded τ)) : Session (Recorded τ) :=
  { s with target := { s.target with trace := s.target.trace ++ [event] } }

@[simp] theorem record_core (event : CoreEvent) (s : Session (Recorded τ)) :
    (s.record event).core = s.core := rfl

@[simp] theorem record_trace (event : CoreEvent) (s : Session (Recorded τ)) :
    (s.record event).target.trace = s.target.trace ++ [event] := rfl

/-- What was seen from `s` to `s'`. -/
def sessionTrace (s s' : Session (Recorded τ)) : List CoreEvent :=
  s'.target.trace.drop s.target.trace.length

variable [IDeliveryTarget τ]

/-- One call to the core, written down. -/
def perform (s : Session (Recorded τ)) (op : CoreOp) : Session (Recorded τ) :=
  match op with
  | .start => (s.record (.called op)).start
  | .submit event => ((s.record (.called op)).submit event).2
  | .retryPending => (s.record (.called op)).retryPending.2
  | .stop => (s.record (.called op)).stop.record .stopped

/-- A new core and any sequence of calls to it. -/
def run (queueCapacity : UInt32) (target : τ) (ops : List CoreOp) : Session (Recorded τ) :=
  ops.foldl perform (create queueCapacity { target := target })

@[simp] theorem run_concat (queueCapacity : UInt32) (target : τ) (ops : List CoreOp)
    (op : CoreOp) :
    run queueCapacity target (ops ++ [op]) = (run queueCapacity target ops).perform op := by
  simp [run]

end Session

namespace AppleDeliveryCore

def cursor (core : AppleDeliveryCore) : Cursor :=
  { contactOpen := core.contactOpen, contact := core.contact, batchOrdinal := core.batchOrdinal,
    sequence := core.sequence, nextContact := core.nextContact, nextSample := core.nextSample }

/-- The deliveries still queued, from head to tail. -/
def pending (core : AppleDeliveryCore) : List Delivery :=
  RingBuffer.contents core.queue core.head.toNat core.size.toNat

def model (core : AppleDeliveryCore) : QueueModel :=
  { capacity := core.capacity.toNat, pending := core.pending, cursor := core.cursor,
    capabilities := core.capabilities, started := core.started }

abbrev WellFormed (core : AppleDeliveryCore) : Prop :=
  RingBuffer.WellFormed core.queue core.capacity core.head core.size

@[simp] theorem pending_length (core : AppleDeliveryCore) :
    core.pending.length = core.size.toNat := RingBuffer.contents_length _ _ _

theorem pending_eq_nil {core : AppleDeliveryCore} (h : core.size = 0) : core.pending = [] := by
  simp [pending, h]

theorem hasPending_iff (core : AppleDeliveryCore) :
    core.hasPending ↔ core.started ∧ core.pending ≠ [] := by
  have hsize : core.pending ≠ [] ↔ core.size ≠ 0 := by
    rw [← List.length_pos_iff_ne_nil, pending_length, Nat.pos_iff_ne_zero, ne_eq, ne_eq,
      ← UInt32.toNat_inj]
    rfl
  simp [hasPending, hsize]

/-! What each update of the core does to its queue model. -/

@[simp] theorem model_halt (core : AppleDeliveryCore) : core.halt.model = core.model.stopped := rfl

@[simp] theorem model_resetContact (core : AppleDeliveryCore) :
    core.resetContact.model = { core.model with cursor := core.model.cursor.closed } := rfl

@[simp] theorem model_openContact (core : AppleDeliveryCore) :
    core.openContact.model = { core.model with cursor := core.model.cursor.opened } := rfl

theorem model_push {core : AppleDeliveryCore} (h : core.WellFormed)
    (hroom : core.size.toNat < core.capacity.toNat) (d : Delivery) :
    (core.push d).model =
      { core.model with pending := core.pending ++ [{ d with slot := core.tail }] } := by
  simp only [model, QueueModel.mk.injEq]
  exact ⟨rfl, h.contents_pushed hroom _, rfl, rfl, rfl⟩

theorem model_pop {core : AppleDeliveryCore} (h : core.WellFormed) (hsize : core.size ≠ 0) :
    core.pending = core.front :: core.pop.pending ∧
      core.pop.model = { core.model with pending := core.pop.pending } :=
  ⟨h.contents_popped hsize, rfl⟩

theorem model_onlyCancel {core : AppleDeliveryCore} (h : core.WellFormed) :
    core.onlyCancel.model = { core.model with pending := [core.model.cursor.cancellation] } := by
  have hpos : 0 < core.queue.length := by rw [h.length]; exact h.positive
  simp only [model, QueueModel.mk.injEq]
  refine ⟨rfl, ?_, rfl, rfl, rfl⟩
  simp [pending, onlyCancel, RingBuffer.contents, RingBuffer.slot, hpos, cursor,
    Cursor.cancellation, cancelDelivery, countDelivery]

theorem WellFormed.create {queueCapacity : UInt32} (hpos : 0 < queueCapacity)
    (hbound : queueCapacity.toNat ≤ 2 ^ 31) : (create queueCapacity).WellFormed := by
  have hpos : 0 < queueCapacity.toNat := by simpa [UInt32.lt_iff_toNat_lt] using hpos
  exact ⟨by simp [AppleDeliveryCore.create], hpos, hbound, by simpa [AppleDeliveryCore.create],
    by simp [AppleDeliveryCore.create]⟩

theorem WellFormed.onlyCancel {core : AppleDeliveryCore} (h : core.WellFormed) :
    core.onlyCancel.WellFormed :=
  ⟨by simpa [AppleDeliveryCore.onlyCancel] using h.length, h.positive, h.bound,
    by simpa [AppleDeliveryCore.onlyCancel] using h.positive, h.positive⟩

end AppleDeliveryCore

namespace Session
open AppleDeliveryCore
variable {τ : Type*}

/-- From `s` to `s'` the target saw what the relation allows, and the core stayed a queue. -/
def Emits (s s' : Session (Recorded τ)) (rel : List CoreEvent → QueueModel → Prop) : Prop :=
  ∃ events, rel events s'.core.model ∧ s'.target.trace = s.target.trace ++ events ∧
    s'.core.WellFormed

/-- A call that only notes the event. -/
theorem emits_unchanged {s : Session (Recorded τ)} {event : CapturedEvent}
    (h : s.core.WellFormed)
    (hcall : QueueModel.Calls s.core.model (.submit event) [.called (.submit event)]
      s.core.model) :
    Emits s (s.record (.called (.submit event)))
      (QueueModel.Calls s.core.model (.submit event)) :=
  ⟨[.called (.submit event)], hcall, rfl, h⟩

/-- A delivery was queued behind the others, and the target knows nothing of it yet. -/
def Queues (s : Session τ) (q : QueueModel) (d : Delivery)
    (outcome : Except (Session τ) (Session τ)) : Prop :=
  ∃ core slot, outcome = .ok { core := core, target := s.target } ∧ core.WellFormed ∧
    slot.toNat < q.capacity ∧
    core.model = { q with pending := q.pending ++ [{ d with slot := slot }] }

variable [IDeliveryTarget τ]

/-- The session a call returns from after it has reported an overflow on the way. -/
def Overflows (s : Session τ) (q : QueueModel) (outcome : Except (Session τ) (Session τ)) : Prop :=
  ∃ core, outcome = .error
      { core := core, target := IDeliveryTarget.failed core .Overflow s.target } ∧
    core.WellFormed ∧ core.model = q.stopped

section Enqueue
variable {s : Session τ}

theorem enqueue_full (h : s.core.WellFormed) (d : Delivery)
    (hfull : s.core.pending.length = s.core.capacity.toNat) :
    Overflows s s.core.model (s.enqueue d) := by
  have hsize : s.core.size = s.core.capacity := UInt32.toNat_inj.mp (by simpa using hfull)
  exact ⟨s.core.halt, by rw [enqueue, if_pos hsize]; rfl, h.emptied, rfl⟩

theorem enqueue_room (h : s.core.WellFormed) (d : Delivery)
    (hroom : s.core.pending.length < s.core.capacity.toNat) :
    Queues s s.core.model d (s.enqueue d) := by
  have hlt : s.core.size.toNat < s.core.capacity.toNat := by simpa using hroom
  have hne : s.core.size ≠ s.core.capacity := fun he => by rw [he] at hlt; omega
  refine ⟨s.core.push d, s.core.tail, by rw [enqueue, if_neg hne], h.pushed hlt _, ?_,
    model_push h hlt d⟩
  rw [tail, UInt32.toNat_mod]
  exact Nat.mod_lt _ h.positive

theorem enqueueCancel_full (h : s.core.WellFormed)
    (hfull : s.core.pending.length = s.core.capacity.toNat) :
    Overflows s s.core.model s.enqueueCancel := by
  obtain ⟨core, herror, hwf, hmodel⟩ :=
    enqueue_full (s := { s with core := s.core.countDelivery }) h _ hfull
  exact ⟨core, by rw [enqueueCancel, herror]; rfl, hwf, hmodel⟩

theorem enqueueCancel_room (h : s.core.WellFormed)
    (hroom : s.core.pending.length < s.core.capacity.toNat) :
    Queues s { s.core.model with cursor := s.core.cursor.closed } s.core.cursor.cancellation
      s.enqueueCancel := by
  obtain ⟨core, slot, hok, hwf, hslot, hmodel⟩ :=
    enqueue_room (s := { s with core := s.core.countDelivery }) h
      s.core.countDelivery.cancelDelivery hroom
  refine ⟨core.resetContact, slot, by rw [enqueueCancel, hok]; rfl, hwf, hslot, ?_⟩
  rw [model_resetContact, hmodel]
  rfl

/-- The cursor behind a point of this event. -/
def pointCursor (event : CapturedEvent) (c : Cursor) : Cursor :=
  if event.kind = .End then c.advanced.closed else c.advanced

theorem enqueuePoint_full (h : s.core.WellFormed) (event : CapturedEvent)
    (hfull : s.core.pending.length = s.core.capacity.toNat) :
    Overflows s { s.core.model with
      cursor := pointCursor event s.core.cursor
      capabilities := observedMask event s.core.capabilities } (s.enqueuePoint event) := by
  obtain ⟨core, herror, hwf, hmodel⟩ :=
    enqueue_full (s := { s with core := (s.core.observe event).countDelivery.countSample }) h _
      hfull
  refine ⟨core, by rw [enqueuePoint, herror]; rfl, hwf, hmodel.trans ?_⟩
  unfold pointCursor
  split_ifs <;> rfl

theorem enqueuePoint_room (h : s.core.WellFormed) (event : CapturedEvent)
    (hroom : s.core.pending.length < s.core.capacity.toNat) :
    Queues s { s.core.model with
      cursor := pointCursor event s.core.cursor
      capabilities := observedMask event s.core.capabilities }
      (s.core.cursor.point (phaseOf event.kind) event) (s.enqueuePoint event) := by
  obtain ⟨core, slot, hok, hwf, hslot, hmodel⟩ :=
    enqueue_room (s := { s with core := (s.core.observe event).countDelivery.countSample }) h
      ((s.core.observe event).countDelivery.countSample.pointDelivery event) hroom
  by_cases hend : event.kind = .End
  · refine ⟨core.resetContact, slot, by rw [enqueuePoint, hok]; simp [hend]; rfl, hwf, hslot, ?_⟩
    rw [model_resetContact, hmodel, pointCursor, if_pos hend]
    rfl
  · refine ⟨core, slot, by rw [enqueuePoint, hok]; simp [hend]; rfl, hwf, hslot, ?_⟩
    rw [hmodel, pointCursor, if_neg hend]
    rfl

end Enqueue

theorem drainFrom_refines (turns : Nat) (s : Session (Recorded τ)) (h : s.core.WellFormed)
    (hturns : s.core.size.toNat ≤ turns) :
    Emits s (s.drainFrom turns) (QueueModel.Drains s.core.model) := by
  induction turns generalizing s with
  | zero =>
    have hsize : s.core.size = 0 := UInt32.toNat_inj.mp (by simpa using hturns)
    exact ⟨[], .done (Or.inr (pending_eq_nil hsize)), by simp [drainFrom], h⟩
  | succ turns ih =>
    rw [drainFrom]
    by_cases hp : s.core.hasPending
    · have hstarted : s.core.started := ((hasPending_iff _).mp hp).1
      have hsize : s.core.size ≠ 0 := by
        simp only [hasPending, Bool.and_eq_true, bne_iff_ne] at hp
        exact hp.2
      obtain ⟨hfront, hpop⟩ := model_pop h hsize
      rw [if_pos hp]
      rcases hr : IDeliveryTarget.receive s.core s.core.front s.target.target with
        ⟨decision, target⟩
      cases decision with
      | Accepted =>
        have hless : s.core.pop.size.toNat ≤ turns := by
          have := RingBuffer.size_toNat_pred hsize
          simp only [pop]
          omega
        obtain ⟨events, hdrains, htrace, hwf⟩ := ih
          { core := s.core.pop
            target := { target := target
                        trace := s.target.trace ++
                          [.receive s.core.capabilities s.core.front .Accepted] } }
          (h.popped hsize) hless
        simp only [IDeliveryTarget.receive, hr]
        refine ⟨.receive s.core.capabilities s.core.front .Accepted :: events, ?_,
          by simpa using htrace, hwf⟩
        rw [hpop] at hdrains
        exact .accepted hstarted hfront hdrains
      | Busy =>
        simp only [IDeliveryTarget.receive, hr]
        exact ⟨_, .busy hstarted hfront, rfl, h⟩
      | Rejected =>
        simp only [IDeliveryTarget.receive, hr]
        exact ⟨_, .rejected hstarted hfront, rfl, h.emptied⟩
    · rw [if_neg hp]
      refine ⟨[], .done ?_, by simp, h⟩
      rw [hasPending_iff] at hp
      by_cases hs : s.core.started
      · have hnil : s.core.pending = [] := by simpa [hs] using hp
        exact Or.inr hnil
      · have hstopped : s.core.started = false := by simpa using hs
        exact Or.inl hstopped

theorem drain_refines (s : Session (Recorded τ)) (h : s.core.WellFormed) :
    Emits s s.drain (QueueModel.Drains s.core.model) :=
  drainFrom_refines _ s h le_rfl

section Submit
variable {s : Session (Recorded τ)} {event : CapturedEvent} {q : QueueModel}
  {outcome : Except (Session (Recorded τ)) (Session (Recorded τ))}

/-- A submission that ran into a full queue. -/
theorem finish_overflows (hs : s.core.started) (hk : event.kind ≠ .DeviceObserved)
    (h : Overflows (s.record (.called (.submit event))) q outcome)
    (hfull : s.core.model.capacity <
      s.core.pending.length + (s.core.cursor.translate event).2.length)
    (hcut : q.stopped = s.core.model.stopped ∨ q.stopped = { s.core.model with
      cursor := (s.core.cursor.translate event).1
      capabilities := s.core.model.maskAfter event }.stopped) :
    Emits s (finish outcome) (QueueModel.Calls s.core.model (.submit event)) := by
  obtain ⟨core, rfl, hwf, hmodel⟩ := h
  refine ⟨[.called (.submit event), .failed .Overflow], ?_, by simp [finish, record,
    IDeliveryTarget.failed], hwf⟩
  rw [finish, hmodel]
  cases hcut with
  | inl hcut =>
    rw [hcut]
    exact .overflow hs hk hfull (Or.inl ⟨rfl, rfl⟩)
  | inr hcut =>
    rw [hcut]
    exact .overflow hs hk hfull (Or.inr ⟨rfl, rfl⟩)

/-- A submission that queued its deliveries and offers what is waiting. -/
theorem finish_queues {core : AppleDeliveryCore} {new : List Delivery} (hs : s.core.started)
    (hk : event.kind ≠ .DeviceObserved) (hwf : core.WellFormed)
    (hnew : new.map Delivery.unslotted = (s.core.cursor.translate event).2)
    (hne : new ≠ []) (hslot : ∀ d ∈ new, d.slot.toNat < s.core.model.capacity)
    (hmodel : core.model = { s.core.model with
      pending := s.core.pending ++ new
      cursor := (s.core.cursor.translate event).1
      capabilities := s.core.model.maskAfter event }) :
    Emits s (finish (.ok { core := core, target := (s.record (.called (.submit event))).target }))
      (QueueModel.Calls s.core.model (.submit event)) := by
  obtain ⟨events, hdrains, htrace, hwf'⟩ := drain_refines
    { core := core, target := (s.record (.called (.submit event))).target } hwf
  refine ⟨.called (.submit event) :: events, ?_, by simpa [finish] using htrace, hwf'⟩
  have hroom : s.core.pending.length + new.length ≤ s.core.model.capacity := by
    have hsize := hwf.size
    rw [← pending_length] at hsize
    have hp : core.pending = s.core.pending ++ new := congrArg QueueModel.pending hmodel
    have hc : core.capacity.toNat = s.core.model.capacity := congrArg QueueModel.capacity hmodel
    simpa [hp, hc] using hsize
  rw [hmodel] at hdrains
  exact .queued hs hk hnew hne hslot hroom hdrains

theorem submit_cancel_refines (h : s.core.WellFormed) (hs : s.core.started)
    (hk : event.kind = .Cancel) :
    Emits s (submitEvent event (s.record (.called (.submit event))))
      (QueueModel.Calls s.core.model (.submit event)) := by
  set r := s.record (.called (.submit event)) with hr
  have hkind : event.kind ≠ .DeviceObserved := by simp [hk]
  by_cases ho : s.core.contactOpen
  · have ht : s.core.cursor.translate event =
        (s.core.cursor.closed, [s.core.cursor.cancellation]) := by
      simp [Cursor.translate, hk, cursor, ho]
    have heq : submitEvent event (s.record (.called (.submit event))) =
        finish (s.record (.called (.submit event))).enqueueCancel := by
      simp [submitEvent, record, hs, hk, ho]
    rw [heq]
    cases Nat.lt_or_ge s.core.pending.length s.core.capacity.toNat with
    | inl hroom =>
      obtain ⟨core, slot, hok, hwf, hslot, hmodel⟩ :=
        enqueueCancel_room (s := s.record (.called (.submit event))) h hroom
      have hmodel' : core.model = { s.core.model with
          pending := s.core.pending ++ [{ s.core.cursor.cancellation with slot := slot }]
          cursor := (s.core.cursor.translate event).1
          capabilities := s.core.model.maskAfter event } := by
        rw [hmodel, ht]
        simp [QueueModel.maskAfter, hk]
        rfl
      rw [hok]
      exact finish_queues hs hkind hwf (by rw [ht]; rfl) (by simp) (by simpa using hslot) hmodel'
    | inr hfull =>
      have heq : s.core.pending.length = s.core.capacity.toNat :=
        le_antisymm (by simpa using h.size) hfull
      refine finish_overflows hs hkind
        (enqueueCancel_full (s := s.record (.called (.submit event))) h heq) ?_ (Or.inl rfl)
      rw [ht, heq]
      exact Nat.lt_succ_self _
  · have ht : (s.core.cursor.translate event).2 = [] := by
      simp [Cursor.translate, hk, cursor, ho]
    have heq : submitEvent event (s.record (.called (.submit event))) =
        s.record (.called (.submit event)) := by
      simp [submitEvent, record, hs, hk, ho]
    rw [heq]
    exact emits_unchanged h (.stray hs hkind ht)

/-- A point queued from a core that may already hold the cancellation of the contact before. -/
theorem enqueuePoint_refines {core : AppleDeliveryCore} {before : List Delivery} {c : Cursor}
    (hs : s.core.started) (hk : event.kind ≠ .DeviceObserved) (hk' : event.kind ≠ .Cancel)
    (hwf : core.WellFormed)
    (hmodel : core.model = { s.core.model with
      pending := s.core.pending ++ before, cursor := c })
    (hslots : ∀ d ∈ before, d.slot.toNat < s.core.model.capacity)
    (ht : s.core.cursor.translate event = (pointCursor event c,
      before.map Delivery.unslotted ++ [c.point (phaseOf event.kind) event])) :
    Emits s (finish (enqueuePoint event
        { core := core, target := (s.record (.called (.submit event))).target }))
      (QueueModel.Calls s.core.model (.submit event)) := by
  have hcap : core.capacity.toNat = s.core.model.capacity := congrArg QueueModel.capacity hmodel
  have hpending : core.pending = s.core.pending ++ before := congrArg QueueModel.pending hmodel
  have hcursor : core.cursor = c := congrArg QueueModel.cursor hmodel
  have hmask : core.capabilities = s.core.capabilities := congrArg QueueModel.capabilities hmodel
  have hafter : s.core.model.maskAfter event = observedMask event s.core.capabilities := by
    rw [QueueModel.maskAfter, if_neg hk']
    rfl
  cases Nat.lt_or_ge core.pending.length core.capacity.toNat with
  | inl hroom =>
    obtain ⟨core', slot, hok, hwf', hslot, hmodel'⟩ := enqueuePoint_room
      (s := { core := core, target := (s.record (.called (.submit event))).target }) hwf event hroom
    have hqueued : core'.model = { s.core.model with
        pending := s.core.pending ++
          (before ++ [{ c.point (phaseOf event.kind) event with slot := slot }])
        cursor := (s.core.cursor.translate event).1
        capabilities := s.core.model.maskAfter event } := by
      rw [hmodel', ht, hafter, hmodel, hcursor, hmask]
      simp
    rw [hok]
    refine finish_queues hs hk hwf' (by rw [ht]; simp [Cursor.point, Delivery.unslotted])
      (by simp) ?_ hqueued
    intro d hd
    cases List.mem_append.mp hd with
    | inl hd => exact hslots d hd
    | inr hd =>
      rw [List.mem_singleton.mp hd, ← hcap]
      exact hslot
  | inr hfull =>
    have heq : core.pending.length = core.capacity.toNat :=
      le_antisymm (by simpa using hwf.size) hfull
    refine finish_overflows hs hk (enqueuePoint_full
      (s := { core := core, target := (s.record (.called (.submit event))).target }) hwf event heq)
      ?_ (Or.inr ?_)
    · have hlength := congrArg List.length hpending
      rw [List.length_append] at hlength
      rw [ht, List.length_append, List.length_map, List.length_singleton]
      omega
    · rw [ht, hafter, hmodel, hcursor, hmask]
      rfl

theorem submit_begin_refines (h : s.core.WellFormed) (hs : s.core.started)
    (hk : event.kind = .Begin) :
    Emits s (submitEvent event (s.record (.called (.submit event))))
      (QueueModel.Calls s.core.model (.submit event)) := by
  have hkind : event.kind ≠ .DeviceObserved := by simp [hk]
  have hkind' : event.kind ≠ .Cancel := by simp [hk]
  by_cases ho : s.core.contactOpen
  · have ht : s.core.cursor.translate event = (s.core.cursor.opened.advanced,
        [s.core.cursor.cancellation, s.core.cursor.opened.point .Begin event]) := by
      simp [Cursor.translate, hk, cursor, ho]
    have heq : submitEvent event (s.record (.called (.submit event))) =
        finish ((s.record (.called (.submit event))).enqueueCancel >>= fun s =>
          enqueuePoint event { s with core := s.core.openContact }) := by
      simp [submitEvent, hs, hk, ho]
    rw [heq]
    cases Nat.lt_or_ge s.core.pending.length s.core.capacity.toNat with
    | inl hroom =>
      obtain ⟨core, slot, hok, hwf, hslot, hmodel⟩ :=
        enqueueCancel_room (s := s.record (.called (.submit event))) h hroom
      have hmodel' : core.openContact.model = { s.core.model with
          pending := s.core.pending ++ [{ s.core.cursor.cancellation with slot := slot }]
          cursor := s.core.cursor.opened } := by
        rw [model_openContact, hmodel]
        rfl
      rw [hok]
      refine enqueuePoint_refines hs hkind hkind' hwf hmodel' (by simpa using hslot) ?_
      rw [ht]
      simp [pointCursor, hk, phaseOf, Cursor.cancellation, Delivery.unslotted]
    | inr hfull =>
      have hlength : s.core.pending.length = s.core.capacity.toNat :=
        le_antisymm (by simpa using h.size) hfull
      have hover := enqueueCancel_full (s := s.record (.called (.submit event))) h hlength
      refine finish_overflows hs hkind (q := s.core.model) ?_ ?_ (Or.inl rfl)
      · obtain ⟨core, herror, hrest⟩ := hover
        exact ⟨core, by rw [herror]; rfl, hrest⟩
      · rw [ht, hlength]
        simp [model]
  · have heq : submitEvent event (s.record (.called (.submit event))) =
        finish (enqueuePoint event
          { s.record (.called (.submit event)) with core := s.core.openContact }) := by
      simp [submitEvent, hs, hk, ho]
      rfl
    rw [heq]
    have hmodel : s.core.openContact.model = { s.core.model with
        pending := s.core.pending ++ [], cursor := s.core.cursor.opened } := by
      rw [model_openContact, List.append_nil]
      rfl
    refine enqueuePoint_refines hs hkind hkind' h hmodel (by simp) ?_
    simp [Cursor.translate, hk, cursor, ho, pointCursor, phaseOf]

theorem submit_extend_refines (h : s.core.WellFormed) (hs : s.core.started)
    (hk : event.kind = .Update ∨ event.kind = .End) :
    Emits s (submitEvent event (s.record (.called (.submit event))))
      (QueueModel.Calls s.core.model (.submit event)) := by
  have hkind : event.kind ≠ .DeviceObserved := by rcases hk with hk | hk <;> simp [hk]
  have hkind' : event.kind ≠ .Cancel := by rcases hk with hk | hk <;> simp [hk]
  by_cases ho : s.core.contactOpen
  · have heq : submitEvent event (s.record (.called (.submit event))) =
        finish (enqueuePoint event (s.record (.called (.submit event)))) := by
      rcases hk with hk | hk <;> simp [submitEvent, hs, hk, ho]
    rw [heq]
    have hmodel : s.core.model = { s.core.model with
        pending := s.core.pending ++ [], cursor := s.core.cursor } := by
      rw [List.append_nil]
      rfl
    refine enqueuePoint_refines hs hkind hkind' h hmodel (by simp) ?_
    rcases hk with hk | hk <;>
      simp [Cursor.translate, hk, cursor, ho, pointCursor, phaseOf]
  · have ht : (s.core.cursor.translate event).2 = [] := by
      rcases hk with hk | hk <;> simp [Cursor.translate, hk, cursor, ho]
    have heq : submitEvent event (s.record (.called (.submit event))) =
        s.record (.called (.submit event)) := by
      rcases hk with hk | hk <;> simp [submitEvent, hs, hk, ho]
    rw [heq]
    exact emits_unchanged h (.stray hs hkind ht)

theorem submit_refines (h : s.core.WellFormed) :
    Emits s (submitEvent event (s.record (.called (.submit event))))
      (QueueModel.Calls s.core.model (.submit event)) := by
  by_cases hs : s.core.started
  · cases hk : event.kind with
    | DeviceObserved =>
      have heq : submitEvent event (s.record (.called (.submit event))) =
          { s.record (.called (.submit event)) with core := s.core.report event } := by
        simp [submitEvent, hs, hk]
      rw [heq]
      exact ⟨[.called (.submit event)], .device hs hk, rfl, h⟩
    | Begin => exact submit_begin_refines h hs hk
    | Update => exact submit_extend_refines h hs (Or.inl hk)
    | End => exact submit_extend_refines h hs (Or.inr hk)
    | Cancel => exact submit_cancel_refines h hs hk
  · have heq : submitEvent event (s.record (.called (.submit event))) =
        s.record (.called (.submit event)) := by
      simp [submitEvent, hs]
    have hstopped : s.core.started = false := by simpa using hs
    rw [heq]
    exact emits_unchanged h (.ignored hstopped)

end Submit

/-- Stop offers the cancellation alone, and whatever the answer, the session is over. -/
theorem stop_refines {s : Session (Recorded τ)} (h : s.core.WellFormed) :
    Emits s ((s.record (.called .stop)).stop.record .stopped)
      (QueueModel.Calls s.core.model .stop) := by
  by_cases ho : s.core.started && s.core.contactOpen
  · have heq : (s.record (.called .stop)).stop =
        let s' := drain { s.record (.called .stop) with core := s.core.onlyCancel }
        { s' with core := s'.core.halt } := by
      simp only [stop, record_core, ho, if_true]
    obtain ⟨hs, hc⟩ := (Bool.and_eq_true _ _).mp ho
    obtain ⟨events, hdrains, htrace, hwf⟩ := drain_refines
      { s.record (.called .stop) with core := s.core.onlyCancel } h.onlyCancel
    rw [model_onlyCancel h] at hdrains
    obtain ⟨decision, rfl, hstopped⟩ := hdrains.of_single hs
    rw [heq]
    refine ⟨[.called .stop, .receive s.core.model.capabilities s.core.model.cursor.cancellation
      decision, .stopped], ?_, by simp [htrace], hwf.emptied⟩
    simp only [record_core, model_halt, hstopped]
    exact .cancelled hs hc
  · have heq : (s.record (.called .stop)).stop =
        { s.record (.called .stop) with core := s.core.halt } := by
      simp only [stop, record_core, ho, if_false, Bool.false_eq_true]
    have hclosed : ¬ (s.core.model.started ∧ s.core.model.cursor.contactOpen) := by
      rwa [Bool.and_eq_true] at ho
    rw [heq]
    refine ⟨[.called .stop, .stopped], ?_, by simp, h.emptied⟩
    simp only [record_core, model_halt]
    exact .closed hclosed

/-- Every call to the core is a call of the queue model. -/
theorem perform_refines {s : Session (Recorded τ)} (h : s.core.WellFormed) (op : CoreOp) :
    Emits s (s.perform op) (QueueModel.Calls s.core.model op) := by
  cases op with
  | start => exact ⟨[.called .start], .start _, rfl, h.emptied⟩
  | submit event => exact submit_refines h
  | retryPending =>
    obtain ⟨events, hdrains, htrace, hwf⟩ := drain_refines (s.record (.called .retryPending)) h
    exact ⟨_, .retried hdrains, by simpa [perform, retryPending] using htrace, hwf⟩
  | stop => exact stop_refines h

/-- Calls to a core that is written down, and calls of its queue model. -/
def simulation : Simulation (Session (Recorded τ)) QueueModel CoreOp CoreEvent where
  perform := perform
  trace s := s.target.trace
  model s := s.core.model
  wellFormed s := s.core.WellFormed
  calls := QueueModel.Calls
  call? := CoreEvent.call?
  labelled hcall := hcall.callsOf_eq
  refines _ op h := perform_refines h op

/-- Every run of the core is a run of the queue model with the same conversation, when each call
is one that is allowed where it is made. -/
theorem runFrom_refines {s : Session (Recorded τ)} (h : s.core.WellFormed)
    (allowed : List CoreEvent → QueueModel → CoreOp → Prop) (ops : List CoreOp)
    (hallowed : Always (fun before op =>
      allowed (sessionTrace s (before.foldl perform s))
        (before.foldl perform s).core.model op) ops) :
    QueueModel.Reaches allowed s.core.model (sessionTrace s (ops.foldl perform s))
        (ops.foldl perform s).core.model ∧
      (ops.foldl perform s).target.trace =
        s.target.trace ++ sessionTrace s (ops.foldl perform s) ∧
      callsOf (sessionTrace s (ops.foldl perform s)) = ops ∧
      (ops.foldl perform s).core.WellFormed :=
  simulation.reaches h allowed ops hallowed

theorem run_refines {queueCapacity : UInt32} (hpos : 0 < queueCapacity)
    (hbound : queueCapacity.toNat ≤ 2 ^ 31) (target : τ)
    (allowed : List CoreEvent → QueueModel → CoreOp → Prop) (ops : List CoreOp)
    (hallowed : Always (fun before op => allowed (run queueCapacity target before).target.trace
      (run queueCapacity target before).core.model op) ops) :
    QueueModel.Reaches allowed { capacity := queueCapacity.toNat }
        (run queueCapacity target ops).target.trace (run queueCapacity target ops).core.model ∧
      callsOf (run queueCapacity target ops).target.trace = ops ∧
      (run queueCapacity target ops).core.WellFormed := by
  have hstart : (create queueCapacity { target := target : Recorded τ }).core.WellFormed :=
    .create hpos hbound
  obtain ⟨hreach, -, hcalls, hwf⟩ := runFrom_refines hstart allowed ops hallowed
  exact ⟨hreach, hcalls, hwf⟩

theorem run_wellFormed {queueCapacity : UInt32} (hpos : 0 < queueCapacity)
    (hbound : queueCapacity.toNat ≤ 2 ^ 31) (target : τ) (ops : List CoreOp) :
    (run queueCapacity target ops).core.WellFormed :=
  (run_refines hpos hbound target (fun _ _ _ => True) ops fun _ _ _ _ => trivial).2.2

end Session
end LightPhi.Apple
