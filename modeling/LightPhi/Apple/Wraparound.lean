import LightPhi.Apple.Refinement
import LightPhi.Base.Word

/-! Where numbers of the core wrap. Above a capacity of 2^31 the sum of head and size can leave 32
bits, and a delivery then goes into a cell that is already taken; and after 2^64 contacts the
identities start again from zero. -/
namespace LightPhi.Apple
open Base

/-- A target that accepts everything but a number of offers in a row. -/
def Script.busyFor (first count : Nat) : Script :=
  { answer := fun i => if first ≤ i ∧ i < first + count then .Busy else .Accepted }

namespace AppleDeliveryCore

/-- The delivery of a further point of the open contact. -/
def further (event : CapturedEvent) (core : AppleDeliveryCore) : Delivery :=
  { (core.observe event).countDelivery.countSample.pointDelivery event with slot := core.tail }

/-- That delivery was queued. -/
def extended (event : CapturedEvent) (core : AppleDeliveryCore) : AppleDeliveryCore :=
  { core with
    queue := core.queue.set core.tail.toNat (core.further event)
    size := core.size + 1
    capabilities := (core.observe event).capabilities
    batchOrdinal := core.batchOrdinal + 1
    nextSample := core.nextSample + 1
    sequence := core.sequence + 1 }

section Extended
variable (event : CapturedEvent) (core : AppleDeliveryCore)

theorem extended_queue :
    (core.extended event).queue = core.queue.set core.tail.toNat (core.further event) := rfl
@[simp] theorem extended_started : (core.extended event).started = core.started := rfl
@[simp] theorem extended_contactOpen : (core.extended event).contactOpen = core.contactOpen := rfl
@[simp] theorem extended_capacity : (core.extended event).capacity = core.capacity := rfl
@[simp] theorem extended_head : (core.extended event).head = core.head := rfl
@[simp] theorem extended_size : (core.extended event).size = core.size + 1 := rfl
@[simp] theorem extended_batchOrdinal :
    (core.extended event).batchOrdinal = core.batchOrdinal + 1 := rfl

theorem extended_tail (h : core.tail.toNat < core.queue.length) :
    (core.extended event).queue.getD core.tail.toNat default = core.further event := by
  simp [extended_queue, List.getD_eq_getElem?_getD, h]

theorem extended_other {cell : Nat} (h : core.tail.toNat ≠ cell) :
    (core.extended event).queue.getD cell default = core.queue.getD cell default := by
  simp [extended_queue, List.getD_eq_getElem?_getD, h]

end Extended
end AppleDeliveryCore

namespace Session
open AppleDeliveryCore
variable {τ : Type*} [IDeliveryTarget τ]

section Perform
variable {s : Session (Recorded τ)} (event : CapturedEvent)

theorem enqueuePoint_extended (s : Session τ) (hk : event.kind ≠ .End)
    (hroom : s.core.size ≠ s.core.capacity) :
    s.enqueuePoint event = .ok { s with core := s.core.extended event } := by
  have hroom' : (s.core.observe event).countDelivery.countSample.size ≠
      (s.core.observe event).countDelivery.countSample.capacity := hroom
  simp only [enqueuePoint, enqueue, if_neg hroom', if_neg hk]
  rfl

theorem perform_begin (hk : event.kind = .Begin) (hs : s.core.started)
    (ho : s.core.contactOpen = false) (hroom : s.core.size ≠ s.core.capacity) :
    s.perform (.submit event) = drain
      { s.record (.called (.submit event)) with core := s.core.openContact.extended event } := by
  have hpoint := enqueuePoint_extended event
    { s.record (.called (.submit event)) with core := s.core.openContact } (by simp [hk]) hroom
  simp only [perform, submit, submitEvent, record_core, hs, ho, hk]
  exact congrArg finish hpoint

theorem perform_update (hk : event.kind = .Update) (hs : s.core.started)
    (ho : s.core.contactOpen) (hroom : s.core.size ≠ s.core.capacity) :
    s.perform (.submit event) =
      drain { s.record (.called (.submit event)) with core := s.core.extended event } := by
  have hpoint := enqueuePoint_extended event (s.record (.called (.submit event)))
    (by simp [hk]) hroom
  simp only [perform, submit, submitEvent, record_core, hs, ho, hk]
  exact congrArg finish hpoint

end Perform

/-- The target after it answered an offer of the head. -/
def answered (s : Session (Recorded Script)) (decision : DeliveryDecision) : Recorded Script :=
  { target := { s.target.target with offers := s.target.target.offers + 1 }
    trace := s.target.trace ++ [.receive s.core.capabilities s.core.front decision] }

theorem drainFrom_accepted {s : Session (Recorded Script)} (turns : Nat)
    (hp : s.core.hasPending) (ha : s.target.target.answer s.target.target.offers = .Accepted) :
    drainFrom (turns + 1) s =
      drainFrom turns { core := s.core.pop, target := s.answered .Accepted } := by
  simp [drainFrom, hp, IDeliveryTarget.receive, ha, answered]

theorem drainFrom_busy {s : Session (Recorded Script)} (turns : Nat)
    (hp : s.core.hasPending) (ha : s.target.target.answer s.target.target.offers = .Busy) :
    drainFrom (turns + 1) s = { s with target := s.answered .Busy } := by
  simp [drainFrom, hp, IDeliveryTarget.receive, ha, answered]

theorem drainFrom_rejected {s : Session (Recorded Script)} (turns : Nat)
    (hp : s.core.hasPending) (ha : s.target.target.answer s.target.target.offers = .Rejected) :
    drainFrom (turns + 1) s =
      { core := s.core.discardQueue.resetContact, target := s.answered .Rejected } := by
  simp [drainFrom, hp, IDeliveryTarget.receive, ha, answered]

/-- One contact of very many points. -/
def longContact (updates : Nat) : List CoreOp :=
  .submit (plainEvent .Begin) :: List.replicate updates (.submit (plainEvent .Update))

/-- An open contact in a ring of capacity `N`, with its first deliveries accepted and the next
ones not. The watched cell is one the head has left. -/
structure Follows (N : UInt32) (answer : Nat → DeliveryDecision) (watched accepted waiting : Nat)
    (s : Session (Recorded Script)) : Prop where
  started : s.core.started
  contactOpen : s.core.contactOpen
  capacity : s.core.capacity = N
  length : s.core.queue.length = N.toNat
  head : s.core.head.toNat = accepted
  size : s.core.size.toNat = waiting
  batchOrdinal : s.core.batchOrdinal = UInt64.ofNat (accepted + waiting)
  stale : watched < accepted →
    (s.core.queue.getD watched default).batchOrdinal = UInt64.ofNat (watched + 1) ∧
      (s.core.queue.getD watched default).phase = .Update
  answer : s.target.target.answer = answer
  offers : s.target.target.offers = accepted + waiting
  clean : NothingAbandoned s.target.trace

theorem nothingAbandoned_offered {trace : List CoreEvent} (h : NothingAbandoned trace)
    (op : CoreOp) (mask : UInt16) (d : Delivery) {decision : DeliveryDecision}
    (hd : decision ≠ .Rejected) :
    NothingAbandoned (trace ++ [.called op] ++ [.receive mask d decision]) := by
  refine nothingAbandoned_append.mpr ⟨nothingAbandoned_append.mpr ⟨h, ?_⟩, ?_⟩
  · simp [NothingAbandoned, CoreEvent.abandons]
  · cases decision <;> simp_all [NothingAbandoned, CoreEvent.abandons]

section Follows
variable {N : UInt32} {answer : Nat → DeliveryDecision} {watched accepted waiting : Nat}
  {s : Session (Recorded Script)} {event : CapturedEvent}

theorem Follows.size_ne (h : Follows N answer watched accepted waiting s)
    (hroom : waiting < N.toNat) : s.core.size ≠ s.core.capacity := by
  intro he
  have := congrArg UInt32.toNat he
  rw [h.size, h.capacity] at this
  omega

theorem Follows.size_succ (h : Follows N answer watched accepted waiting s)
    (hroom : waiting < N.toNat) : (s.core.size + 1).toNat = waiting + 1 := by
  have := N.toNat_lt
  rw [UInt32.toNat_add, UInt32.toNat_one, h.size]
  exact Nat.mod_eq_of_lt (by omega)

theorem Follows.hasPending (h : Follows N answer watched accepted waiting s)
    (hroom : waiting < N.toNat) : (s.core.extended event).hasPending := by
  have hzero : s.core.size + 1 ≠ 0 := fun he => by
    have hsize := h.size_succ hroom
    rw [he] at hsize
    simp at hsize
  simp [AppleDeliveryCore.hasPending, h.started, hzero]

theorem Follows.next_ordinal (h : Follows N answer watched accepted waiting s) :
    s.core.batchOrdinal + 1 = UInt64.ofNat (accepted + waiting + 1) := by
  rw [h.batchOrdinal]
  exact (UInt64.ofNat_add _ _).symm

/-- A point that is accepted at once. -/
theorem Follows.taken (h : Follows N answer watched accepted 0 s) (hroom : accepted + 1 < N.toNat)
    (hk : watched = accepted → phaseOf event.kind = .Update)
    (ha : answer accepted = .Accepted) :
    Follows N answer watched (accepted + 1) 0
      (drain { s.record (.called (.submit event)) with core := s.core.extended event }) := by
  have hzero : s.core.size = 0 := UInt32.toNat_inj.mp h.size
  have hhead : ((s.core.head + 1) % s.core.capacity).toNat = accepted + 1 := by
    have := N.toNat_lt
    have hsum : (s.core.head + 1).toNat = accepted + 1 := by
      rw [UInt32.toNat_add, UInt32.toNat_one, h.head]
      exact Nat.mod_eq_of_lt (by omega)
    rw [UInt32.toNat_mod, hsum, h.capacity]
    exact Nat.mod_eq_of_lt hroom
  have htail : s.core.tail.toNat = accepted := by
    rw [tail, hzero, UInt32.toNat_mod, h.capacity, UInt32.add_zero, h.head]
    exact Nat.mod_eq_of_lt (by omega)
  rw [drain]
  simp only [extended_size, h.size_succ (by omega : 0 < N.toNat)]
  rw [drainFrom_accepted 0 (h.hasPending (by omega))
    (by simpa [record, h.answer, h.offers] using ha)]
  exact {
    started := h.started
    contactOpen := h.contactOpen
    capacity := h.capacity
    length := by simpa [drainFrom, pop, extended_queue] using h.length
    head := hhead
    size := by simp [drainFrom, pop, hzero]
    batchOrdinal := h.next_ordinal
    stale := fun hle => by
      cases Nat.lt_succ_iff_lt_or_eq.mp hle with
      | inl hlt =>
        have hother := extended_other event s.core (by omega : s.core.tail.toNat ≠ watched)
        exact hother ▸ h.stale hlt
      | inr heq =>
        subst heq
        have hlast := extended_tail event s.core (by rw [htail, h.length]; omega)
        rw [htail] at hlast
        exact hlast ▸ ⟨h.next_ordinal, hk rfl⟩
    answer := h.answer
    offers := by simp [drainFrom, answered, record, h.offers]
    clean := nothingAbandoned_offered h.clean _ _ _ (by simp) }

theorem Follows.drain_refused (h : Follows N answer watched accepted waiting s)
    (hroom : waiting < N.toNat) (ha : answer (accepted + waiting) = .Busy) :
    let r := { s.record (.called (.submit event)) with core := s.core.extended event }
    drain r = { r with target := r.answered .Busy } := by
  intro r
  have hsize : r.core.size.toNat = waiting + 1 := h.size_succ hroom
  rw [drain, hsize]
  exact drainFrom_busy waiting (h.hasPending hroom)
    (by simpa [r, record, h.answer, h.offers] using ha)

/-- A point that is queued behind the refused one, in another cell than the watched one. -/
theorem Follows.refused (h : Follows N answer watched accepted waiting s)
    (hroom : waiting < N.toNat) (hw : s.core.tail.toNat ≠ watched)
    (ha : answer (accepted + waiting) = .Busy) :
    Follows N answer watched accepted (waiting + 1)
      (drain { s.record (.called (.submit event)) with core := s.core.extended event }) := by
  rw [h.drain_refused hroom ha]
  exact {
    started := h.started
    contactOpen := h.contactOpen
    capacity := h.capacity
    length := by simpa [extended_queue] using h.length
    head := h.head
    size := h.size_succ hroom
    batchOrdinal := h.next_ordinal
    stale := fun hle => by
      rw [extended_other event s.core hw]
      exact h.stale hle
    answer := h.answer
    offers := by simp [answered, record, h.offers, add_assoc]
    clean := nothingAbandoned_offered h.clean _ _ _ (by simp) }

/-- The contact opens in a session without a past. -/
theorem Follows.begun (hN : 2 ≤ N.toNat) (hw : 0 < watched) (ha : answer 0 = .Accepted) :
    Follows N answer watched 1 0
      ((run N { answer := answer } [.start]).perform (.submit (plainEvent .Begin))) := by
  have hne : (0 : UInt32) ≠ N := by
    intro heq
    subst heq
    simp at hN
  have hopen : Follows N answer watched 0 0
      { run N { answer := answer } [.start] with
        core := (run N { answer := answer : Script } [.start]).core.openContact } :=
    { started := rfl
      contactOpen := rfl
      capacity := rfl
      length := List.length_replicate
      head := rfl
      size := rfl
      batchOrdinal := rfl
      stale := fun hlt => absurd hlt (Nat.not_lt_zero _)
      answer := rfl
      offers := rfl
      clean := by simp [run, perform, Session.start, NothingAbandoned, CoreEvent.abandons,
        Session.create] }
  rw [perform_begin (plainEvent .Begin) rfl rfl rfl hne]
  exact hopen.taken hN (fun he => absurd he hw.ne') ha

/-- Updates that are accepted one by one, up to the last cell of the ring. -/
theorem Follows.updates_taken (h : Follows N answer watched 1 0 s) {n : Nat}
    (hroom : n + 1 < N.toNat) (ha : ∀ i < n + 1, answer i = .Accepted) :
    Follows N answer watched (n + 1) 0
      ((List.replicate n (.submit (plainEvent .Update))).foldl perform s) := by
  induction n with
  | zero => exact h
  | succ n ih =>
    have h := ih (by omega) fun i hi => ha i (by omega)
    rw [List.replicate_succ', List.foldl_concat,
      perform_update (plainEvent .Update) rfl h.started h.contactOpen (h.size_ne (by omega))]
    exact h.taken hroom (fun _ => rfl) (ha _ (by omega))

/-- Updates that wait, none of them in the watched cell. -/
theorem Follows.updates_refused (h : Follows N answer watched accepted 0 s) {n : Nat}
    (hroom : n ≤ N.toNat) (hw : ∀ i < n, (accepted + i) % 2 ^ 32 % N.toNat ≠ watched)
    (ha : ∀ i < n, answer (accepted + i) = .Busy) :
    Follows N answer watched accepted n
      ((List.replicate n (.submit (plainEvent .Update))).foldl perform s) := by
  induction n with
  | zero => exact h
  | succ n ih =>
    have h := ih (by omega) (fun i hi => hw i (by omega)) fun i hi => ha i (by omega)
    rw [List.replicate_succ', List.foldl_concat,
      perform_update (plainEvent .Update) rfl h.started h.contactOpen (h.size_ne (by omega))]
    refine h.refused (by omega) ?_ (ha n (by omega))
    rw [tail, UInt32.toNat_mod, UInt32.toNat_add, h.head, h.size, h.capacity]
    exact hw n (by omega)

/-- Behind the last cell come the first ones, until the sum of head and size wraps; then comes the
first cell once more. -/
theorem tail_cases {n i : Nat} (hn : 2 ^ 31 < n) (hlt : n < 2 ^ 32) (hi : i ≤ 2 ^ 32 - n + 1) :
    (n - 1 + i) % 2 ^ 32 % n ≠ 2 ^ 32 - n := by
  cases Nat.eq_zero_or_pos i with
  | inl hzero =>
    subst hzero
    rw [Nat.add_zero, Nat.mod_eq_of_lt (by omega : n - 1 < 2 ^ 32),
      Nat.mod_eq_of_lt (by omega : n - 1 < n)]
    omega
  | inr hpos =>
    cases Nat.lt_or_ge (n - 1 + i) (2 ^ 32) with
    | inl hfits =>
      have hsum : n - 1 + i = n + (i - 1) := by omega
      rw [Nat.mod_eq_of_lt hfits, hsum, Nat.add_mod_left, Nat.mod_eq_of_lt (by omega : i - 1 < n)]
      omega
    | inr hwraps =>
      have hsum : n - 1 + i = 2 ^ 32 := by omega
      rw [hsum, Nat.mod_self, Nat.zero_mod]
      omega

/-- The head has come to the last cell, and further updates wait: in the last cell, in the cells
from the first on, and once the sum of head and size wraps, in the first cell again. -/
theorem follows_longContact (answer : Nat → DeliveryDecision) (waiting : Nat)
    (hN : 2 ^ 31 < N.toNat) (hwaiting : waiting ≤ 2 ^ 32 - N.toNat + 2)
    (haccepted : ∀ i < N.toNat - 1, answer i = .Accepted)
    (hbusy : ∀ i < waiting, answer (N.toNat - 1 + i) = .Busy) :
    Follows N answer (2 ^ 32 - N.toNat) (N.toNat - 1) waiting
      ((longContact (N.toNat - 2 + waiting)).foldl perform
        (run N { answer := answer } [.start])) := by
  have hlt := N.toNat_lt
  have hpred : N.toNat - 2 + 1 = N.toNat - 1 := by omega
  have hbegun : Follows N answer (2 ^ 32 - N.toNat) 1 0 _ :=
    .begun (by omega) (by omega) (haccepted 0 (by omega))
  have htaken := hbegun.updates_taken (n := N.toNat - 2) (by omega) (by rwa [hpred])
  rw [hpred] at htaken
  have hrefused := htaken.updates_refused (n := waiting) (by omega) (fun i hi => ?_) hbusy
  · rwa [longContact, List.foldl_cons, List.replicate_add, List.foldl_append]
  · exact tail_cases hN hlt (by omega)

end Follows

theorem translate_update {c : Cursor} (ho : c.contactOpen) :
    c.translate (plainEvent .Update) =
      (c.advanced, [c.point .Update (plainEvent .Update)]) := by
  simp [Cursor.translate, plainEvent, ho]

theorem translateAll_updates {c : Cursor} (ho : c.contactOpen) (n : Nat) :
    let last := (c.translateAll (List.replicate n (plainEvent .Update))).1
    last.contactOpen ∧ last.batchOrdinal = c.batchOrdinal + UInt64.ofNat n := by
  induction n with
  | zero => simp [Cursor.translateAll, ho]
  | succ n ih =>
    obtain ⟨hlast, hordinal⟩ := ih
    rw [List.replicate_succ', Cursor.translateAll_concat, translate_update hlast]
    refine ⟨hlast, ?_⟩
    calc _ = c.batchOrdinal + UInt64.ofNat n + 1 := congrArg (· + 1) hordinal
      _ = c.batchOrdinal + UInt64.ofNat (n + 1) := by 
        rw [UInt64.ofNat_add, UInt64.add_assoc]
        rfl

/-- What a contact of `n + 1` updates means ends with the delivery of the last one. -/
theorem translateAll_longContact (c : Cursor) (n : Nat) :
    ∃ deliveries d, (c.translateAll (submittedBy (longContact (n + 1)))).2 = deliveries ++ [d] ∧
      d.batchOrdinal = UInt64.ofNat (n + 2) := by
  have hevents : submittedBy (longContact (n + 1)) =
      (plainEvent .Begin :: List.replicate n (plainEvent .Update)) ++ [plainEvent .Update] := by
    rw [longContact, List.replicate_succ', submittedBy, List.filterMap_cons,
      List.filterMap_append, List.filterMap_replicate]
    rfl
  obtain ⟨hopen, hordinal⟩ := translateAll_updates (c := (c.translate (plainEvent .Begin)).1) rfl n
  rw [hevents, Cursor.translateAll_concat, Cursor.translateAll, translate_update hopen]
  refine ⟨_, _, rfl, ?_⟩
  calc _ = (0 : UInt64) + 1 + UInt64.ofNat n + 1 := congrArg (· + 1) hordinal
    _ = UInt64.ofNat (n + 2) := by
      rw [UInt64.ofNat_add, UInt64.zero_add, UInt64.add_comm 1, UInt64.add_assoc]
      rfl

/-- Above a capacity of 2^31 a delivery is lost: some contact is accepted up to the last cell of
the ring, its next updates wait, and what waits last is a delivery from long before. -/
theorem pending_lost {N : UInt32} (hN : 2 ^ 31 < N.toNat) {updates : Nat}
    (hupdates : updates = 2 ^ 32) :
    let first := run N (Script.busyFor (N.toNat - 1) (2 ^ 32 - N.toNat + 2)) [.start]
    let last := (longContact updates).foldl perform first
    NothingAbandoned (sessionTrace first last) ∧
      (acceptedOf (sessionTrace first last) ++ last.core.pending).map Delivery.unslotted ≠
        (first.core.cursor.translateAll (submittedBy (longContact updates))).2 := by
  intro first last
  have hlt := N.toNat_lt
  have hcount : N.toNat - 2 + (2 ^ 32 - N.toNat + 1 + 1) = updates := by omega
  have h : Follows N _ (2 ^ 32 - N.toNat) (N.toNat - 1) (2 ^ 32 - N.toNat + 1 + 1) last :=
    hcount ▸ follows_longContact first.target.target.answer _ hN (by omega)
      (fun i hi => if_neg (by omega)) (fun i hi => if_pos (by omega))
  have hslot : RingBuffer.slot last.core.queue.length last.core.head.toNat
      (2 ^ 32 - N.toNat + 1) = 2 ^ 32 - N.toNat := by
    have hsum : N.toNat - 1 + (2 ^ 32 - N.toNat + 1) = N.toNat + (2 ^ 32 - N.toNat) := by omega
    rw [RingBuffer.slot, h.length, h.head, hsum, Nat.add_mod_left]
    exact Nat.mod_eq_of_lt (by omega)
  have hpending : last.core.pending.getLast? =
      some (last.core.queue.getD (2 ^ 32 - N.toNat) default) := by
    rw [pending, h.size, RingBuffer.contents_getLast?, hslot]
  refine ⟨fun event he => h.clean event (List.mem_of_mem_drop he), fun heq => ?_⟩
  obtain ⟨deliveries, d, hall, hordinal⟩ :=
    translateAll_longContact first.core.cursor (2 ^ 32 - 1)
  have hnumber : (2 ^ 32 : Nat) - 1 + 1 = updates := hupdates.symm
  rw [hnumber] at hall
  have hlast := congrArg List.getLast? (heq.trans hall)
  rw [List.getLast?_map, List.getLast?_append, hpending, List.getLast?_concat,
    Option.some_or, Option.map_some] at hlast
  have hwatched : (last.core.queue.getD (2 ^ 32 - N.toNat) default).batchOrdinal =
      d.batchOrdinal := by
    have hd := Option.some.inj hlast
    rw [← hd]
    rfl
  rw [(h.stale (by omega)).1, hordinal] at hwatched
  have hne := congrArg UInt64.toNat hwatched
  rw [Word.toNat_ofNat_lt (by omega), Word.toNat_ofNat_lt (by omega)] at hne
  omega

/-- Three deliveries that wait at the end of the largest ring, once they are accepted: the last
cell, the first one, and the one behind it. -/
theorem drain_three {s : Session (Recorded Script)} (hs : s.core.started)
    (hcapacity : s.core.capacity = 0xFFFFFFFF) (hhead : s.core.head = 0xFFFFFFFE)
    (hsize : s.core.size = 3)
    (ha : ∀ i < 3, s.target.target.answer (s.target.target.offers + i) = .Accepted) :
    (drain s).target.trace = s.target.trace ++
      [.receive s.core.capabilities s.core.front .Accepted,
        .receive s.core.capabilities (s.core.queue.getD 0 default) .Accepted,
        .receive s.core.capabilities (s.core.queue.getD 1 default) .Accepted] := by
  let s₁ : Session (Recorded Script) := ⟨s.core.pop, s.answered .Accepted⟩
  let s₂ : Session (Recorded Script) := ⟨s₁.core.pop, s₁.answered .Accepted⟩
  have hhead₁ : s₁.core.head = 0 := by
    simp only [s₁, pop, hhead, hcapacity]
    rfl
  have hhead₂ : s₂.core.head = 1 := by
    have hcapacity₁ : s₁.core.capacity = 0xFFFFFFFF := hcapacity
    simp only [s₂, pop, hhead₁, hcapacity₁]
    rfl
  have hturn := drainFrom_accepted 2 (s := s) (by simp [hasPending, hs, hsize]) (ha 0 (by omega))
  have hturn₁ := drainFrom_accepted 1 (s := s₁) (by simp [s₁, hasPending, pop, hs, hsize])
    (ha 1 (by omega))
  have hturn₂ := drainFrom_accepted 0 (s := s₂) (by simp [s₂, s₁, hasPending, pop, hs, hsize])
    (ha 2 (by omega))
  have hturns : s.core.size.toNat = 3 := by rw [hsize]; rfl
  have hfront₁ : s₁.core.front = s.core.queue.getD 0 default := by
    rw [front, hhead₁]
    rfl
  have hfront₂ : s₂.core.front = s.core.queue.getD 1 default := by
    rw [front, hhead₂]
    rfl
  rw [drain, hturns, hturn, hturn₁, hturn₂, ← hfront₁, ← hfront₂]
  simp [drainFrom, answered, s₂, s₁, pop]

theorem longContact_succ (n : Nat) :
    longContact (n + 1) = longContact n ++ [.submit (plainEvent .Update)] := by
  rw [longContact, List.replicate_succ']
  rfl

/-- In the largest ring a contact of 2^32 updates, the last three of which wait: retried, the
update that found the sum of head and size wrapped is offered before a much older one. -/
theorem offers_behind {updates : Nat} (hupdates : updates = 2 ^ 32) :
    ∃ before mask a b c, (run 0xFFFFFFFF (Script.busyFor 0xFFFFFFFE 3)
        (.start :: longContact updates ++ [.retryPending])).target.trace =
          before ++ [.receive mask a .Accepted, .receive mask b .Accepted,
            .receive mask c .Accepted] ∧
      (callsOf before).getLast? = some .retryPending ∧ b.phase = .Update ∧ c.phase = .Update ∧
      c.batchOrdinal < b.batchOrdinal := by
  obtain ⟨earlier, rfl⟩ : ∃ earlier, updates = earlier + 1 := ⟨updates - 1, by omega⟩
  set first := run 0xFFFFFFFF (Script.busyFor 0xFFFFFFFE 3) [.start] with hfirst
  set s := (longContact earlier).foldl perform first with hs
  have hbusy (i : Nat) (hi : i < 3) :
      (Script.busyFor 0xFFFFFFFE 3).answer (0xFFFFFFFE + i) = .Busy :=
    if_pos ⟨by omega, by omega⟩
  have h : Follows 0xFFFFFFFF (Script.busyFor 0xFFFFFFFE 3).answer 1 0xFFFFFFFE 2 s := by
    have h := follows_longContact (N := 0xFFFFFFFF)
      (Script.busyFor 0xFFFFFFFE 3).answer 2 (by decide) (by decide)
      (fun i hi => if_neg (by rintro ⟨hle, -⟩; simp at hi; omega)) (fun i hi => hbusy i (by omega))
    have hcount : (0xFFFFFFFF : UInt32).toNat - 2 + 2 = earlier := by simp; omega
    rwa [hcount] at h
  set s' := s.perform (.submit (plainEvent .Update)) with hs'
  have hroom : 2 < (0xFFFFFFFF : UInt32).toNat := by decide
  have hperform := perform_update (plainEvent .Update) rfl h.started h.contactOpen
    (h.size_ne hroom)
  have hcore : s'.core = s.core.extended (plainEvent .Update) := by
    rw [hs', hperform, h.drain_refused hroom (hbusy 2 (by omega))]
  have hhead : s.core.head = 0xFFFFFFFE := UInt32.toNat_inj.mp h.head
  have hsize : s.core.size = 2 := UInt32.toNat_inj.mp h.size
  have htail : s.core.tail = 0 := by rw [tail, hhead, hsize, h.capacity]; rfl
  have h' : Follows 0xFFFFFFFF (Script.busyFor 0xFFFFFFFE 3).answer 1 0xFFFFFFFE 3 s' := by
    rw [hs', hperform]
    exact h.refused hroom (by rw [htail]; decide) (hbusy 2 (by omega))
  have hfirst : s'.core.queue.getD 0 default = s.core.further (plainEvent .Update) := by
    have hcell := extended_tail (plainEvent .Update) s.core (by rw [htail, h.length]; decide)
    rwa [htail, ← hcore] at hcell
  have htrace := drain_three (s := s'.record (.called .retryPending)) h'.started h'.capacity
    (UInt32.toNat_inj.mp h'.head) (UInt32.toNat_inj.mp h'.size) fun i hi => by
      have hoffers : (s'.record (.called .retryPending)).target.target.offers = 0xFFFFFFFE + 3 :=
        h'.offers
      have hanswer : (s'.record (.called .retryPending)).target.target.answer =
        (Script.busyFor 0xFFFFFFFE 3).answer := h'.answer
      rw [hoffers, hanswer]
      exact if_neg (by omega)
  have hrun : run 0xFFFFFFFF (Script.busyFor 0xFFFFFFFE 3)
      (.start :: longContact (earlier + 1) ++ [.retryPending]) =
        drain (s'.record (.called .retryPending)) := by
    rw [List.cons_append, run, List.foldl_cons, List.foldl_concat, longContact_succ,
      List.foldl_concat]
    rfl
  obtain ⟨hordinal, hphase⟩ := h'.stale (by decide)
  rw [hrun, htrace]
  refine ⟨_, _, _, _, _, rfl, ?_, ?_, hphase, ?_⟩
  · simp [callsOf, CoreEvent.call?]
  · exact congrArg Delivery.phase hfirst
  · have hlast : (s'.core.queue.getD 0 default).batchOrdinal = UInt64.ofNat (0xFFFFFFFE + 2 + 1) :=
      (congrArg Delivery.batchOrdinal hfirst).trans h.next_ordinal
    refine lt_of_eq_of_lt hordinal (lt_of_lt_of_eq ?_ hlast.symm)
    decide

/-- A session in which `n` contacts began and none was taken. -/
structure Begun (n : Nat) (s : Session (Recorded Script)) : Prop where
  started : s.core.started
  contactOpen : s.core.contactOpen = false
  capacity : s.core.capacity = 1
  length : s.core.queue.length = 1
  head : s.core.head = 0
  size : s.core.size = 0
  nextContact : s.core.nextContact = UInt64.ofNat n
  answer : s.target.target.answer = fun _ => .Rejected

theorem Begun.next {n : Nat} {s : Session (Recorded Script)} (h : Begun n s) :
    Begun (n + 1) (s.perform (.submit (plainEvent .Begin))) ∧ ∃ mask d,
      (s.perform (.submit (plainEvent .Begin))).target.trace =
        s.target.trace ++ [.called (.submit (plainEvent .Begin))] ++ [.receive mask d .Rejected] ∧
      d.contact = UInt64.ofNat (n + 1) := by
  have hne : s.core.size ≠ s.core.capacity := by rw [h.size, h.capacity]; decide
  have hsize : (s.core.openContact.extended (plainEvent .Begin)).size.toNat = 1 := by
    simp [openContact, h.size]
  have hturn := drainFrom_rejected 0
    (s := { s.record (.called (.submit (plainEvent .Begin))) with
      core := s.core.openContact.extended (plainEvent .Begin) })
    (by simp [hasPending, openContact, h.started, h.size])
    (by simp [record, h.answer])
  rw [perform_begin _ rfl h.started h.contactOpen hne, drain, hsize, hturn]
  have hnext : s.core.nextContact + 1 = UInt64.ofNat (n + 1) := by
    rw [h.nextContact]
    exact (UInt64.ofNat_add _ _).symm
  refine ⟨⟨h.started, rfl, h.capacity, ?_, rfl, rfl, hnext, h.answer⟩, _, _, rfl, ?_⟩
  · simpa [extended_queue, resetContact, discardQueue, openContact] using h.length
  · have htail : s.core.openContact.tail.toNat = 0 := by
      simp [tail, openContact, h.head, h.size]
    have hcell := extended_tail (plainEvent .Begin) s.core.openContact (by
      rw [htail]
      exact lt_of_lt_of_eq Nat.zero_lt_one h.length.symm)
    have hfront : (s.core.openContact.extended (plainEvent .Begin)).front =
        s.core.openContact.further (plainEvent .Begin) := by
      have hhead : (s.core.openContact.extended (plainEvent .Begin)).head = 0 := h.head
      rw [htail] at hcell
      rw [front, hhead]
      exact hcell
    exact (congrArg Delivery.contact hfront).trans hnext

/-- Contact after contact is offered and rejected, each with the next identity. -/
theorem begins_rejected (n : Nat) :
    Begun n ((List.replicate n (.submit (plainEvent .Begin))).foldl perform
      (run 1 (Script.always .Rejected) [.start])) := by
  induction n with
  | zero => exact ⟨rfl, rfl, rfl, rfl, rfl, rfl, rfl, rfl⟩
  | succ n ih =>
    rw [List.replicate_succ', List.foldl_concat]
    exact ih.next.1

end Session
end LightPhi.Apple
