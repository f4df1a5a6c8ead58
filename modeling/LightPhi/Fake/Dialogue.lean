import LightPhi.Fake.Fifo
import LightPhi.Fake.PublicRules

/-! Whatever a receiver can be told under the delivery rules, and however it answers, the fake
source can tell it. -/
namespace LightPhi.Fake
open Base Input
variable {ι ω : Type*}

/-- A batch handed to a receiver, and its answer. -/
abbrev Handover := InputBatch × DeliveryResult

/-- The state of a receiver behind one more handover. -/
def hear (C : InputSourceCapabilities) (state : DeliveryState) : Handover → DeliveryState
  | (batch, .Accepted) =>
    match validateBatch batch C state with
    | .ok next => next
    | .error _ => state
  | (_, .Busy) => state
  | (_, .Rejected) => {}

def heard (C : InputSourceCapabilities) (dialogue : List Handover) : DeliveryState :=
  dialogue.foldl (hear C) {}

/-- The batch that was refused and has to be offered again. -/
def refusedBatch : Option Handover → Option InputBatch
  | some (batch, .Busy) => some batch
  | _ => none

def dispatchResult : DeliveryResult → Except DispatchError Unit
  | .Accepted => .ok ()
  | .Busy => .error .ReceiverBusy
  | .Rejected => .error .ReceiverRejected

/-- How a source is made to hand over a batch, and what it returns: a refused batch waits already,
another one is scripted first. -/
def handingOver (last : Option Handover) (next : Handover) : List (FakeCall ι × FakeResult) :=
  let dispatch := (.op .dispatchNext, .dispatched (dispatchResult next.2))
  if (refusedBatch last).isSome then [dispatch]
  else [(.op (.enqueue next.1), .enqueued (.ok ())), dispatch]

def handingAllOver : Option Handover → List Handover → List (FakeCall ι × FakeResult)
  | _, [] => []
  | last, next :: dialogue => handingOver last next ++ handingAllOver (some next) dialogue

/-- The calls that play a dialogue, with their results. -/
def performance (receiver : ι) (dialogue : List Handover) : List (FakeCall ι × FakeResult) :=
  (.op (.start receiver), .started (.ok ())) :: handingAllOver none dialogue

theorem heard_concat (C : InputSourceCapabilities) (dialogue : List Handover) (next : Handover) :
    heard C (dialogue ++ [next]) = hear C (heard C dialogue) next := List.foldl_concat ..

theorem handingAllOver_concat (last : Option Handover) (dialogue : List Handover)
    (next : Handover) :
    handingAllOver (ι := ι) last (dialogue ++ [next]) =
      handingAllOver last dialogue ++ handingOver (dialogue.getLast?.or last) next := by
  induction dialogue generalizing last with
  | nil => exact List.append_nil _
  | cons first dialogue ih =>
    rw [List.cons_append, handingAllOver, ih, handingAllOver, List.append_assoc,
      List.getLast?_cons]
    cases dialogue.getLast? <;> rfl

section Receiver
variable [IInputReceiver ι ω]

/-- The world behind a dialogue with a receiver. -/
def worldAfter (receiver : ι) (world : ω) (dialogue : List Handover) : ω :=
  dialogue.foldl (fun world next => (IInputReceiver.receive receiver next.1 world).2) world

theorem worldAfter_concat (receiver : ι) (world : ω) (dialogue : List Handover)
    (next : Handover) : worldAfter receiver world (dialogue ++ [next]) =
      (IInputReceiver.receive receiver next.1 (worldAfter receiver world dialogue)).2 :=
  List.foldl_concat ..

/-- A handover that the rules allow behind the ones before it, and the answer the receiver gives:
the batch passes the batch check, and a refused one is offered again. -/
structure MayFollow (C : InputSourceCapabilities) (receiver : ι) (world : ω)
    (before : List Handover) (next : Handover) : Prop where
  valid : (validateBatch next.1 C (heard C before)).isOk
  again : ∀ batch, refusedBatch before.getLast? = some batch → next.1 = batch
  answer : (IInputReceiver.receive receiver next.1 (worldAfter receiver world before)).1 = next.2

instance (C : InputSourceCapabilities) (receiver : ι) (world : ω) (before : List Handover)
    (next : Handover) : Decidable (MayFollow C receiver world before next) :=
  decidable_of_iff ((validateBatch next.1 C (heard C before)).isOk ∧
      (∀ batch ∈ refusedBatch before.getLast?, next.1 = batch) ∧
      (IInputReceiver.receive receiver next.1 (worldAfter receiver world before)).1 = next.2)
    ⟨fun h => ⟨h.1, h.2.1, h.2.2⟩, fun h => ⟨h.valid, h.again, h.answer⟩⟩

/-- The world in which the calls are written down, behind a dialogue. -/
theorem worldAfter_recorded {C : InputSourceCapabilities} {receiver : ι} {world : ω}
    {dialogue : List Handover} (h : Always (MayFollow C receiver world) dialogue) :
    worldAfter receiver ({ world := world } : Recorded ι ω) dialogue =
      { world := worldAfter receiver world dialogue
        trace := dialogue.map fun next => .receive receiver next.1 next.2 } := by
  induction dialogue using List.reverseRecOn with
  | nil => rfl
  | append_singleton dialogue next ih =>
    obtain ⟨hbefore, hnext⟩ := (always_concat _ _).mp h
    have hlast : [next].map (fun next => FakeEvent.receive receiver next.1 next.2) =
        [.receive receiver next.1
          (IInputReceiver.receive receiver next.1 (worldAfter receiver world dialogue)).1] := by
      rw [hnext.answer]
      rfl
    rw [worldAfter_concat, ih hbefore, worldAfter_concat, List.map_append, hlast]
    rfl

theorem mayFollow_recorded {C : InputSourceCapabilities} {receiver : ι} {world : ω}
    {dialogue : List Handover} (h : Always (MayFollow C receiver world) dialogue) :
    Always (MayFollow C receiver ({ world := world } : Recorded ι ω)) dialogue := by
  intro before next after hsplit
  have hnext := h before next after hsplit
  refine ⟨hnext.valid, hnext.again, ?_⟩
  subst hsplit
  rw [worldAfter_recorded h.of_append]
  exact hnext.answer

end Receiver

/-- A list bound to a receiver in the given state: only the batch it refused last waits. -/
structure Telling (C : InputSourceCapabilities) (receiver : ι) (state : DeliveryState)
    (last : Option Handover) (q : ScriptQueue ι) : Prop where
  capabilities : q.capabilities = C
  room : 0 < q.capacity
  receiver : q.receiver = some receiver
  failNext : q.failNext = false
  pending : q.pending = (refusedBatch last).toList
  script : validateStream C state q.pending = .ok q.script
  delivered : Delivered state q.deliveredContact q.deliveredBatchOrdinal

section Telling
variable [IInputReceiver ι ω] {C : InputSourceCapabilities} {receiver : ι} {state : DeliveryState}
  {last : Option Handover} {next : Handover} {t : QueueSession ι ω}

/-- A batch that the rules allow is scripted. -/
theorem Telling.enqueue (h : Telling C receiver state last t.queue) {after : DeliveryState}
    (hlast : refusedBatch last = none) (hvalid : validateBatch next.1 C state = .ok after) :
    (t.answer (.op (.enqueue next.1))).1 = .enqueued (.ok ()) ∧
      (t.answer (.op (.enqueue next.1))).2.world = t.world ∧
      Telling C receiver state (some (next.1, .Busy))
        (t.answer (.op (.enqueue next.1))).2.queue := by
  have hpending : t.queue.pending = [] := by
    rw [h.pending, hlast]
    rfl
  have hscript : t.queue.script = state := by
    have hempty := h.script
    rw [hpending] at hempty
    exact (Except.ok.inj hempty).symm
  have hroom : t.queue.pending.length ≠ t.queue.capacity := by
    rw [hpending]
    exact h.room.ne
  have hcheck : validateBatch next.1 t.queue.capabilities t.queue.script = .ok after := by
    rw [h.capabilities, hscript]
    exact hvalid
  have hqueued : t.enqueue next.1 = (.ok (), { t with queue := { t.queue with
      pending := t.queue.pending ++ [next.1], script := after } }) := by
    rw [QueueSession.enqueue, if_neg hroom, hcheck]
  rw [QueueSession.answer, hqueued]
  refine ⟨rfl, rfl, h.capabilities, h.room, h.receiver, h.failNext, ?_, ?_, h.delivered⟩
  · rw [hpending]
    rfl
  · rw [hpending, validateStream, List.nil_append, List.foldlM_cons, hvalid]
    rfl

/-- The batch that waits is handed over, and the receiver decides what becomes of it. -/
theorem Telling.dispatch (h : Telling C receiver state last t.queue)
    (hlast : refusedBatch last = some next.1)
    (hanswer : (IInputReceiver.receive receiver next.1 t.world).1 = next.2) :
    (t.answer (.op .dispatchNext)).1 = .dispatched (dispatchResult next.2) ∧
      (t.answer (.op .dispatchNext)).2.world =
        (IInputReceiver.receive receiver next.1 t.world).2 ∧
      Telling C receiver (hear C state next) (some next)
        (t.answer (.op .dispatchNext)).2.queue := by
  have hpending : t.queue.pending = [next.1] := by
    rw [h.pending, hlast]
    rfl
  have hvalid : validateBatch next.1 C state = .ok t.queue.script := by
    have hscript := h.script
    rw [hpending, validateStream, List.foldlM_cons, bind_eq_ok] at hscript
    obtain ⟨after, hafter, hrest⟩ := hscript
    rw [hafter]
    exact hrest
  obtain ⟨batch, result⟩ := next
  simp only at hanswer hpending hvalid
  rcases hreceive : IInputReceiver.receive receiver batch t.world with ⟨decision, world⟩
  obtain rfl : decision = result := by
    rw [← hanswer, hreceive]
  simp only [QueueSession.answer, QueueSession.dispatchNext, h.receiver, h.failNext, hpending,
    hreceive, Bool.false_eq_true, if_false]
  cases decision with
  | Accepted =>
    have hstate : hear C state (batch, .Accepted) = t.queue.script := by
      rw [hear, hvalid]
    refine ⟨rfl, rfl, h.capabilities, h.room, h.receiver, h.failNext, rfl, ?_, ?_⟩
    · rw [hstate]
      rfl
    · rw [hstate]
      exact delivered_of_accepted hvalid
  | Busy =>
    refine ⟨rfl, rfl, h.capabilities, h.room, h.receiver, h.failNext, hpending, ?_, h.delivered⟩
    exact h.script
  | Rejected =>
    refine ⟨rfl, rfl, h.capabilities, h.room, h.receiver, h.failNext, rfl, rfl, ?_⟩
    exact delivered_closed _

/-- One handover is played by one or two calls. -/
theorem Telling.handOver (h : Telling C receiver state last t.queue)
    (hvalid : (validateBatch next.1 C state).isOk)
    (hagain : ∀ batch, refusedBatch last = some batch → next.1 = batch)
    (hanswer : (IInputReceiver.receive receiver next.1 t.world).1 = next.2) :
    Machine.answers QueueSession.answer t ((handingOver last next).map Prod.fst) =
        (handingOver (ι := ι) last next).map Prod.snd ∧
      (Machine.after QueueSession.answer t ((handingOver last next).map Prod.fst)).world =
        (IInputReceiver.receive receiver next.1 t.world).2 ∧
      Telling C receiver (hear C state next) (some next)
        (Machine.after QueueSession.answer t ((handingOver last next).map Prod.fst)).queue := by
  cases hlast : refusedBatch last with
  | some batch =>
    obtain rfl := hagain batch hlast
    obtain ⟨hresult, hworld, hnext⟩ := h.dispatch hlast hanswer
    rw [handingOver, if_pos (by rw [hlast]; rfl)]
    exact ⟨congrArg (fun result => [result]) hresult, hworld, hnext⟩
  | none =>
    obtain ⟨after, hafter⟩ := exists_of_isOk hvalid
    obtain ⟨hqueued, hsame, hwaiting⟩ := h.enqueue hlast hafter
    rw [← hsame] at hanswer
    obtain ⟨hresult, hworld, hnext⟩ := hwaiting.dispatch rfl hanswer
    rw [handingOver, if_neg (by rw [hlast]; exact Bool.false_ne_true)]
    rw [hsame] at hworld
    refine ⟨?_, hworld, hnext⟩
    simp only [List.map_cons, List.map_nil, Machine.answers, hqueued, hresult]

/-- A whole dialogue, from the first handover on. -/
theorem Telling.handAllOver {dialogue : List Handover} (h : Telling C receiver {} none t.queue)
    (hmay : Always (MayFollow C receiver t.world) dialogue) :
    Machine.answers QueueSession.answer t ((handingAllOver none dialogue).map Prod.fst) =
        (handingAllOver (ι := ι) none dialogue).map Prod.snd ∧
      (Machine.after QueueSession.answer t ((handingAllOver none dialogue).map Prod.fst)).world =
        worldAfter receiver t.world dialogue ∧
      Telling C receiver (heard C dialogue) dialogue.getLast?
        (Machine.after QueueSession.answer t
          ((handingAllOver none dialogue).map Prod.fst)).queue := by
  induction dialogue using List.reverseRecOn with
  | nil => exact ⟨rfl, rfl, h⟩
  | append_singleton dialogue next ih =>
    obtain ⟨hbefore, hnext⟩ := (always_concat _ _).mp hmay
    obtain ⟨hanswers, hworld, htelling⟩ := ih hbefore
    have hanswer := hnext.answer
    rw [← hworld] at hanswer
    obtain ⟨hmore, hlast, hstands⟩ := htelling.handOver hnext.valid hnext.again hanswer
    rw [handingAllOver_concat, Option.or_none, List.map_append, List.map_append,
      Machine.answers_append, Machine.after_append, hanswers, hmore, hlast, hworld,
      worldAfter_concat, heard_concat, List.getLast?_concat]
    exact ⟨rfl, rfl, hstands⟩

end Telling

namespace Session
variable [IInputReceiver ι ω] {C : InputSourceCapabilities} {receiver : ι}

/-- A new source returns what it should, call by call, and leaves the world a dialogue leaves. -/
theorem performs_dialogue {memory : Memory} {descriptor : FakeInputSourceDescriptor}
    {source : FakeInputSource ι} (h : FakeInputSource.create memory descriptor = .ok source)
    {world : ω} {dialogue : List Handover}
    (hmay : Always (MayFollow descriptor.capabilities receiver world) dialogue) :
    let s : Session ι ω := { source := source, world := world }
    let calls := (performance receiver dialogue).map Prod.fst
    Machine.answers answer s calls = (performance receiver dialogue).map Prod.snd ∧
      (Machine.after answer s calls).world = worldAfter receiver world dialogue ∧
      Telling descriptor.capabilities receiver (heard descriptor.capabilities dialogue)
        dialogue.getLast? (Machine.after answer s calls).source.model := by
  intro s calls
  obtain ⟨hwf, hmodel⟩ := FakeInputSource.WellFormed.of_create h
  have hroom : 0 < descriptor.maximumQueuedBatches.toNat := by
    have hcapacity : source.queueCapacity.toNat = descriptor.maximumQueuedBatches.toNat :=
      congrArg ScriptQueue.capacity hmodel
    rw [← hcapacity]
    exact hwf.ring.positive
  have hbound : (s.model.answer (.op (.start receiver))).1 = .started (.ok ()) ∧
      (s.model.answer (.op (.start receiver))).2.world = world ∧
      Telling descriptor.capabilities receiver {} none
        (s.model.answer (.op (.start receiver))).2.queue := by
    have hqueue : s.model.queue = source.model := rfl
    rw [QueueSession.answer, hqueue, hmodel]
    exact ⟨rfl, rfl, rfl, hroom, rfl, rfl, rfl, rfl, delivered_closed _⟩
  obtain ⟨hstarted, hworld, htelling⟩ := hbound
  rw [← hworld] at hmay
  obtain ⟨hanswers, hlast, hstands⟩ := htelling.handAllOver hmay
  have hrel : Models s s.model := ⟨hwf, rfl⟩
  obtain ⟨-, hafter⟩ := answer_alike.after hrel calls
  have hmodelled : (Machine.after answer s calls).model =
      Machine.after QueueSession.answer (s.model.answer (.op (.start receiver))).2
        ((handingAllOver none dialogue).map Prod.fst) := hafter.symm
  have hresults : Machine.answers QueueSession.answer s.model calls =
      (s.model.answer (.op (.start receiver))).1 ::
        Machine.answers QueueSession.answer (s.model.answer (.op (.start receiver))).2
          ((handingAllOver none dialogue).map Prod.fst) := rfl
  rw [← hmodelled] at hlast hstands
  rw [hworld] at hlast
  refine ⟨?_, hlast, hstands⟩
  rw [answer_alike.answers hrel calls, hresults, hstarted, hanswers]
  rfl

/-- The cancellation that Stop offers, where it offers one. -/
def stopBatch (s : Session ι ω) : Option InputBatch :=
  if s.source.deliveredContact.value ≠ 0 then some s.source.cancelBatch else none

/-- What a bound receiver sees of Stop. -/
theorem stop_recorded {s : Session ι (Recorded ι ω)}
    (hreceiver : s.source.receiver = some receiver) :
    s.stop.world.trace = s.world.trace ++ (s.stopBatch.toList.map fun batch =>
      .receive receiver batch (IInputReceiver.receive receiver batch s.world.world).1) := by
  rw [stop, hreceiver, stopBatch]
  by_cases hopen : s.source.deliveredContact.value ≠ 0
  · rw [if_pos hopen]
    simp only [if_pos hopen]
    rfl
  · rw [if_neg hopen]
    simp only [if_neg hopen]
    exact (List.append_nil _).symm

/-- The calls of a performance are answered as it says. -/
theorem log_performance {memory : Memory} {descriptor : FakeInputSourceDescriptor}
    {source : FakeInputSource ι} (h : FakeInputSource.create memory descriptor = .ok source)
    {world : ω} {dialogue : List Handover}
    (hmay : Always (MayFollow descriptor.capabilities receiver world) dialogue) :
    Machine.log answer { source := source, world := world }
        ((performance receiver dialogue).map Prod.fst) = performance receiver dialogue := by
  obtain ⟨hanswers, -⟩ := performs_dialogue h hmay
  rw [Machine.log, hanswers]
  exact (List.zip_map' ..).trans (List.map_id' _)

/-- A performance hands over the dialogue. -/
theorem receiverCalls_performance {memory : Memory} {descriptor : FakeInputSourceDescriptor}
    {source : FakeInputSource ι} (h : FakeInputSource.create memory descriptor = .ok source)
    {world : ω} {dialogue : List Handover}
    (hmay : Always (MayFollow descriptor.capabilities receiver world) dialogue) :
    receiverCalls { source := source, world := world }
        ((performance receiver dialogue).map Prod.fst) =
      dialogue.map fun next => .receive receiver next.1 next.2 := by
  obtain ⟨-, hrecorded, -⟩ := performs_dialogue h (mayFollow_recorded hmay)
  rw [worldAfter_recorded hmay] at hrecorded
  exact congrArg Recorded.trace hrecorded

/-- For every descriptor that Create accepts, any dialogue that the delivery rules allow under its
capabilities can be played: nothing is refused, and the receiver is handed exactly these batches,
each refused one as often as it is refused. -/
theorem plays_dialogue {memory : Memory} {descriptor : FakeInputSourceDescriptor}
    {source : FakeInputSource ι} (h : FakeInputSource.create memory descriptor = .ok source)
    {world : ω} {dialogue : List Handover}
    (hmay : Always (MayFollow descriptor.capabilities receiver world) dialogue) :
    let s : Session ι ω := { source := source, world := world }
    let calls := (performance receiver dialogue).map Prod.fst
    Machine.log answer s calls = performance receiver dialogue ∧
      s.receiverCalls calls = dialogue.map (fun next => .receive receiver next.1 next.2) ∧
      (Machine.after answer s calls).world = worldAfter receiver world dialogue := by
  intro s calls
  obtain ⟨-, hworld, -⟩ := performs_dialogue h hmay
  exact ⟨log_performance h hmay, receiverCalls_performance h hmay, hworld⟩

/-- Stop behind a dialogue offers the cancellation of the contact that it has left open. -/
theorem stops_dialogue {memory : Memory} {descriptor : FakeInputSourceDescriptor}
    {source : FakeInputSource ι} (h : FakeInputSource.create memory descriptor = .ok source)
    {world : ω} {dialogue : List Handover}
    (hmay : Always (MayFollow descriptor.capabilities receiver world) dialogue) :
    let s : Session ι ω := { source := source, world := world }
    let calls := (performance receiver dialogue).map Prod.fst
    let performed := Machine.after answer s.recorded calls
    s.receiverCalls (calls ++ [.op .stop]) =
        (dialogue.map fun next => .receive receiver next.1 next.2) ++
          performed.stopBatch.toList.map (fun batch => .receive receiver batch
            (IInputReceiver.receive receiver batch (worldAfter receiver world dialogue)).1) ∧
      Delivered (heard descriptor.capabilities dialogue) performed.source.deliveredContact
        performed.source.deliveredBatchOrdinal := by
  intro s calls performed
  obtain ⟨-, hworld, htelling⟩ := performs_dialogue h (mayFollow_recorded hmay)
  rw [worldAfter_recorded hmay] at hworld
  have hworld' : performed.world = { world := worldAfter receiver world dialogue
                                     trace := dialogue.map fun next =>
                                       .receive receiver next.1 next.2 } := hworld
  have hstopped := stop_recorded (s := performed) htelling.receiver
  rw [hworld'] at hstopped
  refine ⟨?_, htelling.delivered⟩
  rw [receiverCalls, Machine.after_append]
  exact hstopped

/-- A stroke whose second batch is refused once, and whose third is rejected. -/
def refusedStroke : List Handover :=
  [(numberedBatch 1 .Begin, .Accepted), (numberedBatch 2 .Update, .Busy),
   (numberedBatch 2 .Update, .Accepted), (numberedBatch 3 .Update, .Rejected)]

def refusedAnswers : Answers :=
  { answer := fun offer => if offer = 1 then .Busy else if offer = 3 then .Rejected else .Accepted }

theorem plays_dialogue_refused :
    let s : Session Unit Answers :=
      { source := .allocate twoBatches, world := refusedAnswers }
    let calls := (performance () refusedStroke).map Prod.fst
    Machine.log answer s calls = performance () refusedStroke ∧
      s.receiverCalls calls = refusedStroke.map (fun next => .receive () next.1 next.2) ∧
      (Machine.after answer s calls).world = worldAfter () refusedAnswers refusedStroke :=
  plays_dialogue twoBatches_created (by decide)

end Session
end LightPhi.Fake
