import LightPhi.Apple.Identities
import LightPhi.Apple.Wraparound
import LightPhi.Input.DeliveryHistory

/-! The deliveries of the Apple core, handed on as batches, obey the public delivery rules, and
no identity is given twice. -/
namespace LightPhi.MacOS
open Base Input Apple

def toContactPhase : DeliveryPhase → ContactPhase
  | .Begin => .Begin
  | .Update => .Update
  | .End => .End
  | .Cancel => .Cancel

/-- The sample a delivery carries. -/
def toSample (d : Delivery) : InputSample :=
  { id := ⟨d.sample⟩
    sequence := d.sequence
    timeNanoseconds := d.timeNanoseconds
    x := d.x
    y := d.y
    pressure := d.pressure
    tiltXRadians := d.tiltXRadians
    tiltYRadians := d.tiltYRadians
    twistRadians := d.twistRadians
    origin := .Measured
    eraser := d.eraser
    hovering := false }

/-- The batch the receiver sees of a delivery; one without a sample identity carries no sample. -/
def toBatch (d : Delivery) : InputBatch :=
  { contact := ⟨d.contact⟩
    batchOrdinal := d.batchOrdinal
    phase := toContactPhase d.phase
    samples := if d.sample ≠ 0 then [toSample d] else [] }

def publicCapabilities : InputSourceCapabilities :=
  { available := allInputCapabilities, maximumBatchSamples := 1 }

/-- The state of an observer that checks every delivery: it moves on with what is accepted and
forgets the contact when something was rejected, when the source failed, at Start and at Stop. -/
def observe (state : DeliveryState) : CoreEvent → DeliveryState
  | .receive _ d .Accepted =>
    match validateBatch (toBatch d) publicCapabilities state with
    | .ok next => next
    | .error _ => state
  | .receive _ _ .Busy => state
  | .receive _ _ .Rejected | .called .start | .stopped | .failed _ => {}
  | .called (.submit _) | .called .retryPending | .called .stop => state

def observer (trace : List CoreEvent) : DeliveryState := trace.foldl observe {}

/-- Whether the call being served is Stop. -/
def stopping (trace : List CoreEvent) : Bool := (callsOf trace).getLast? == some .stop

/-- What Submit and RetryPending offer passes the batch check from the observer's state. -/
def OffersValid (before : List CoreEvent) : CoreEvent → Prop
  | .receive _ d _ => stopping before = false →
      (validateBatch (toBatch d) publicCapabilities (observer before)).isOk
  | _ => True

/-- Whether an event carries a point. -/
def carriesPoint (event : CapturedEvent) : Bool :=
  event.kind == .Begin || event.kind == .Update || event.kind == .End

structure FinitePoint (event : CapturedEvent) : Prop where
  x : event.x.isFinite
  y : event.y.isFinite
  pressure : event.pressure.isFinite
  tiltX : event.tiltXRadians.isFinite
  tiltY : event.tiltYRadians.isFinite
  twist : event.twistRadians.isFinite

/-- A point of a contact is not earlier than the point before it. -/
def InTime (earlier : List CapturedEvent) (event : CapturedEvent) : Prop :=
  carriesPoint event → event.kind ≠ .Begin →
    ∀ last ∈ (earlier.filter carriesPoint).getLast?, last.timeNanoseconds ≤ event.timeNanoseconds

/-- What a capture adapter promises of the events it submits. -/
structure Captured (events : List CapturedEvent) : Prop where
  finite : ∀ event ∈ events, carriesPoint event → FinitePoint event
  inTime : Always InTime events

theorem Captured.of_plain {events : List CapturedEvent}
    (h : ∀ event ∈ events, event = plainEvent event.kind) : Captured events where
  finite event he _ := by
    have hzero : Binary64.zero.isFinite := by decide
    rw [h event he]
    exact ⟨hzero, hzero, hzero, hzero, hzero, hzero⟩
  inTime := by
    intro earlier event later heq _ _ last hlast
    subst heq
    have hmem : last ∈ earlier := List.mem_of_mem_filter (List.mem_of_getLast? hlast)
    rw [h last (by simp [hmem])]
    exact UInt64.zero_le

section Batch
variable {C : InputSourceCapabilities} {b : InputBatch} {st : DeliveryState}

/-- One measured sample, from the state of its contact. -/
theorem validateBatch_single (next : DeliveryState) (s : InputSample)
    (henv : EnvelopeRule C b) (henter : enterContact b st = .ok next)
    (hsamples : b.samples = [s]) (hcontract : SampleContract C s) (ho : s.origin = .Measured)
    (hid : next.lastSampleId < s.id.value) (hsequence : next.lastCommittedSequence < s.sequence)
    (htime : next.lastTimestamp ≤ s.timeNanoseconds) :
    validateBatch b C st = .ok (leaveBatch b next
      { scan := { sampleId := s.id.value, committedSequence := s.sequence,
                  timestamp := s.timeNanoseconds }
        lastSequenceInBatch := s.sequence }) := by
  refine (validateBatch_eq_ok_iff b C st _).mpr ⟨henv, next, henter, _, ?_, rfl⟩
  have hvalid := (validate_eq_ok s C).mpr hcontract
  simp [validateSamples, validateSamplesFrom, hsamples, validateSample, hvalid, startScan,
    not_le.mpr hid, not_lt.mpr htime, validateOrigin, ho, validateObserved, not_le.mpr hsequence,
    max_eq_right htime, bind, Except.bind]

/-- A batch without samples, from the state of its contact. -/
theorem validateBatch_empty (next : DeliveryState) (henv : EnvelopeRule C b)
    (henter : enterContact b st = .ok next) (hsamples : b.samples = []) :
    validateBatch b C st = .ok (leaveBatch b next (startScan next)) := by
  refine (validateBatch_eq_ok_iff b C st _).mpr ⟨henv, next, henter, _, ?_, rfl⟩
  simp [validateSamples, validateSamplesFrom, hsamples]

/-- Two updates accepted one after the other come in the order of their ordinals. -/
theorem ordinal_lt_of_validateBatch {b' : InputBatch} {next last : DeliveryState}
    (hb : b.phase = .Update) (hb' : b'.phase = .Update) (h : validateBatch b C st = .ok next)
    (h' : validateBatch b' C next = .ok last) : b.batchOrdinal < b'.batchOrdinal := by
  obtain ⟨-, opened, -, loop, -, rfl⟩ := (validateBatch_eq_ok_iff _ _ _ _).mp h
  obtain ⟨-, entered, henter, -⟩ := (validateBatch_eq_ok_iff _ _ _ _).mp h'
  have hlt : (leaveBatch b opened loop).lastBatchOrdinal < b'.batchOrdinal := by
    simp only [enterContact_eq_ok_iff, hb', reduceCtorEq, false_and, false_or] at henter
    exact henter.2.2.2.1
  simpa [leaveBatch, hb] using hlt

end Batch

/-- The state of an observer that has accepted everything translated so far. -/
def stateAt (c : Cursor) (time : UInt64) : DeliveryState :=
  if c.contactOpen then
    { contactOpen := true
      contact := ⟨c.contact⟩
      lastBatchOrdinal := c.batchOrdinal
      lastSampleId := c.nextSample
      lastCommittedSequence := c.sequence
      lastTimestamp := time }
  else {}

@[simp] theorem toBatch_unslotted (d : Delivery) : toBatch d.unslotted = toBatch d := rfl

theorem samples_toBatch {d : Delivery} (h : d.sample ≠ 0) : (toBatch d).samples = [toSample d] := by
  simp [toBatch, h]

theorem envelopeRule_toBatch {d : Delivery} (hcontact : d.contact ≠ 0)
    (hsample : d.sample = 0 ↔ d.phase = .Cancel) : EnvelopeRule publicCapabilities (toBatch d) := by
  refine ⟨hcontact, ?_, ?_, ?_, ?_⟩
  · cases hp : d.phase <;> simp [toBatch, toContactPhase, hp]
  · simp only [toBatch, publicCapabilities]
    split_ifs <;> simp [maximumBatchSamples]
  · cases hp : d.phase <;> simp [toBatch, toContactPhase, hp, hsample]
  · cases hp : d.phase <;> simp [toBatch, toContactPhase, hp, hsample]

theorem sampleContract_toSample {c : Cursor} {phase : DeliveryPhase} {event : CapturedEvent}
    (hfinite : FinitePoint event) (hid : c.nextSample + 1 ≠ 0) :
    SampleContract publicCapabilities (toSample (c.point phase event)) where
  identity := hid
  corrects := by simp [toSample]
  origin := by simp [toSample]
  finite := ⟨hfinite.x, hfinite.y,
    Binary64.clamp_isFinite hfinite.pressure (by decide) (by decide),
    Binary64.clamp_isFinite hfinite.tiltX (by decide) (by decide),
    Binary64.clamp_isFinite hfinite.tiltY (by decide) (by decide), hfinite.twist⟩
  pressureRange := ⟨Binary64.clamp_not_lt (by decide), Binary64.not_lt_clamp (by decide)⟩
  pressure _ := by decide
  timestamp _ := by decide
  tilt _ := by decide
  twist _ := by decide
  eraser _ := by decide
  hover _ := by decide
  coalescing _ := by decide
  prediction _ := by decide
  correction _ := by decide

section Translated
variable {n : Nat} {c : Cursor} {event : CapturedEvent} (h : Counted n c)
  (hn : n + 1 < 2 ^ 64)
include h hn

theorem valid_cancellation (time : UInt64) (ho : c.contactOpen) :
    validateBatch (toBatch c.cancellation) publicCapabilities (stateAt c time) = .ok {} := by
  have hlt := lt_succ_of_le hn h.batchOrdinal
  have henv := envelopeRule_toBatch (d := c.cancellation) (h.contact ho)
    (by simp [Cursor.cancellation])
  rw [validateBatch_empty (stateAt c time) henv]
  · simp [leaveBatch, toBatch, toContactPhase, Cursor.cancellation]
  · simp [enterContact, toBatch, toContactPhase, Cursor.cancellation, stateAt, ho, not_le.mpr hlt]
  · simp [toBatch, Cursor.cancellation]

theorem valid_begin (hfinite : FinitePoint event) :
    validateBatch (toBatch (c.opened.point .Begin event)) publicCapabilities {} =
      .ok (stateAt c.opened.advanced event.timeNanoseconds) := by
  have hid := succ_ne_zero_of_le hn h.nextSample
  have henv := envelopeRule_toBatch (d := c.opened.point .Begin event)
    (succ_ne_zero_of_le hn h.nextContact) (by simpa [Cursor.point, Cursor.opened] using hid)
  rw [validateBatch_single (beginState (toBatch (c.opened.point .Begin event)))
    (toSample (c.opened.point .Begin event)) henv]
  · simp [leaveBatch, toBatch, toContactPhase, Cursor.point, beginState, stateAt, Cursor.advanced,
      Cursor.opened, toSample]
  · simp [enterContact, toBatch, toContactPhase, Cursor.point]
  · exact samples_toBatch hid
  · exact sampleContract_toSample hfinite hid
  · rfl
  · exact (Word.pos_iff_ne_zero _).mpr hid
  · exact lt_succ_of_le hn (Nat.zero_le n)
  · exact UInt64.zero_le

/-- A further point of the open contact. -/
theorem valid_point {time : UInt64} {phase : DeliveryPhase} (ho : c.contactOpen)
    (hp : phase = .Update ∨ phase = .End) (hfinite : FinitePoint event)
    (htime : time ≤ event.timeNanoseconds) :
    validateBatch (toBatch (c.point phase event)) publicCapabilities (stateAt c time) =
      .ok (if phase = .End then {} else stateAt c.advanced event.timeNanoseconds) := by
  have hid := succ_ne_zero_of_le hn h.nextSample
  have hlt := lt_succ_of_le hn h.batchOrdinal
  have henv := envelopeRule_toBatch (d := c.point phase event) (h.contact ho)
    (by rcases hp with rfl | rfl <;> simpa [Cursor.point] using hid)
  rw [validateBatch_single (stateAt c time) (toSample (c.point phase event)) henv]
  · rcases hp with rfl | rfl <;>
      simp [leaveBatch, toBatch, toContactPhase, Cursor.point, stateAt, ho, Cursor.advanced,
        toSample]
  · rcases hp with rfl | rfl <;>
      simp [enterContact, toBatch, toContactPhase, Cursor.point, stateAt, ho, not_le.mpr hlt]
  · exact samples_toBatch hid
  · exact sampleContract_toSample hfinite hid
  · rfl
  · simpa [stateAt, ho, toSample, Cursor.point] using lt_succ_of_le hn h.nextSample
  · simpa [stateAt, ho, toSample, Cursor.point] using lt_succ_of_le hn h.sequence
  · simpa [stateAt, ho, toSample, Cursor.point] using htime

/-- What an event yields is accepted in turn and leads to the state behind it. -/
theorem valid_translate (time : UInt64) (hpoint : carriesPoint event → FinitePoint event)
    (htime : c.contactOpen → carriesPoint event → event.kind ≠ .Begin →
      time ≤ event.timeNanoseconds) :
    validateStream publicCapabilities (stateAt c time) ((c.translate event).2.map toBatch) =
      .ok (stateAt (c.translate event).1
        (if carriesPoint event then event.timeNanoseconds else time)) := by
  have hone (d : Delivery) (st : DeliveryState) :
      validateStream publicCapabilities st [toBatch d] =
        validateBatch (toBatch d) publicCapabilities st := by
    simp [validateStream, List.foldlM]
  have hclosed (c : Cursor) (t : UInt64) : stateAt c.closed t = {} := rfl
  cases hk : event.kind with
  | DeviceObserved => simp [Cursor.translate, hk, carriesPoint, validateStream, pure, Except.pure]
  | Begin =>
    have hfinite := hpoint (by simp [carriesPoint, hk])
    have hbegin := valid_begin h hn hfinite
    by_cases ho : c.contactOpen
    · have hcancel := valid_cancellation h hn time ho
      simp [Cursor.translate, hk, ho, carriesPoint, validateStream, hcancel, hbegin, bind,
        Except.bind, pure, Except.pure]
    · have hstate : stateAt c time = {} := by simp [stateAt, ho]
      simp [Cursor.translate, hk, ho, carriesPoint, hstate, hone, hbegin]
  | Update =>
    by_cases ho : c.contactOpen
    · have hvalid := valid_point h hn ho (Or.inl rfl) (hpoint (by simp [carriesPoint, hk]))
        (htime ho (by simp [carriesPoint, hk]) (by simp [hk]))
      simp [Cursor.translate, hk, ho, carriesPoint, hone, hvalid]
    · simp [Cursor.translate, hk, ho, validateStream, pure, Except.pure, stateAt]
  | End =>
    by_cases ho : c.contactOpen
    · have hvalid := valid_point h hn ho (Or.inr rfl) (hpoint (by simp [carriesPoint, hk]))
        (htime ho (by simp [carriesPoint, hk]) (by simp [hk]))
      simp [Cursor.translate, hk, ho, carriesPoint, hone, hvalid, hclosed]
    · simp [Cursor.translate, hk, ho, validateStream, pure, Except.pure, stateAt]
  | Cancel =>
    by_cases ho : c.contactOpen
    · have hcancel := valid_cancellation h hn time ho
      simp [Cursor.translate, hk, ho, carriesPoint, hone, hcancel, hclosed]
    · simp [Cursor.translate, hk, ho, validateStream, pure, Except.pure, stateAt]

end Translated

theorem observer_concat (trace : List CoreEvent) (event : CoreEvent) :
    observer (trace ++ [event]) = observe (observer trace) event := by
  simp [observer]

/-- The events of a run are finite, in time, and few enough to be numbered. -/
def WellTimed (trace : List CoreEvent) (q : QueueModel) (op : CoreOp) : Prop :=
  QueueModel.FewEvents trace q op ∧ ∀ event, op = .submit event →
    (carriesPoint event → FinitePoint event) ∧ InTime (eventsIn trace) event

/-- The observer accepts everything that waits, and then stands where the capturing side does. -/
structure Valid (trace : List CoreEvent) (q : QueueModel) : Prop where
  started : q.cursor.contactOpen → q.started
  pending : ∃ time,
    validateStream publicCapabilities (observer trace) (q.pending.map toBatch) =
      .ok (stateAt q.cursor time) ∧
    (q.cursor.contactOpen → ∃ last, ((eventsIn trace).filter carriesPoint).getLast? = some last ∧
      last.timeNanoseconds = time)
  offers : Always OffersValid trace

theorem stateAt_closed (c : Cursor) (time : UInt64) : stateAt c.closed time = {} := rfl

theorem Valid.of_closed {trace : List CoreEvent} {q : QueueModel} {c : Cursor}
    (hstate : observer trace = {}) (hq : q.pending = []) (hc : q.cursor = c.closed)
    (hoffers : Always OffersValid trace) : Valid trace q := by
  refine ⟨by simp [hc, Cursor.closed], ⟨0, ?_, by simp [hc, Cursor.closed]⟩, hoffers⟩
  rw [hstate, hq, hc, stateAt_closed]
  rfl

/-- The delivery at the head is accepted, and the rest from the state it leaves. -/
theorem Valid.head {trace : List CoreEvent} {q : QueueModel} {d : Delivery}
    {rest : List Delivery} (h : Valid trace q) (hq : q.pending = d :: rest) :
    ∃ next, validateBatch (toBatch d) publicCapabilities (observer trace) = .ok next ∧ ∃ time,
      validateStream publicCapabilities next (rest.map toBatch) = .ok (stateAt q.cursor time) ∧
      (q.cursor.contactOpen →
        ∃ last, ((eventsIn trace).filter carriesPoint).getLast? = some last ∧
          last.timeNanoseconds = time) := by
  obtain ⟨time, hstream, htime⟩ := h.pending
  rw [hq, List.map_cons, validateStream, List.foldlM_cons, bind_eq_ok] at hstream
  obtain ⟨next, hnext, hrest⟩ := hstream
  exact ⟨next, hnext, time, hrest, htime⟩

theorem Valid.offers_concat {trace : List CoreEvent} {q : QueueModel} {d : Delivery}
    {rest : List Delivery} (h : Valid trace q) (hq : q.pending = d :: rest) (mask : UInt16)
    (decision : DeliveryDecision) : Always OffersValid (trace ++ [.receive mask d decision]) := by
  obtain ⟨next, hnext, -⟩ := h.head hq
  refine (always_concat _ _).mpr ⟨h.offers, fun _ => ?_⟩
  rw [hnext]
  rfl

/-- An event without a point of the open contact moves nothing. -/
theorem Valid.noted {trace : List CoreEvent} {q : QueueModel} {op : CoreOp} (h : Valid trace q)
    (hop : observe (observer trace) (.called op) = observer trace)
    (hpoints : q.cursor.contactOpen →
      (eventsIn (trace ++ [.called op])).filter carriesPoint =
        (eventsIn trace).filter carriesPoint) : Valid (trace ++ [.called op]) q := by
  obtain ⟨time, hstream, htime⟩ := h.pending
  refine ⟨h.started, ⟨time, ?_, ?_⟩, (always_concat _ _).mpr ⟨h.offers, trivial⟩⟩
  · rwa [observer_concat, hop]
  · intro ho
    rw [hpoints ho]
    exact htime ho

theorem valid_calls : QueueModel.CallsPreserve
    (fun trace q op => WellTimed trace q op ∧ Counted (eventsIn trace).length q.cursor) Valid where
  accepted {trace q d rest} hs hq h := by
    obtain ⟨next, hnext, time, hrest, htime⟩ := h.head hq
    refine ⟨fun _ => hs, ⟨time, ?_, by simpa using htime⟩, h.offers_concat hq _ _⟩
    rw [observer_concat, observe, hnext]
    exact hrest
  busy {trace q d rest} _ hq h := by
    obtain ⟨time, hstream, htime⟩ := h.pending
    refine ⟨h.started, ⟨time, ?_, by simpa using htime⟩, h.offers_concat hq _ _⟩
    rwa [observer_concat]
  rejected {trace q d rest} _ hq h :=
    .of_closed (c := q.cursor) (by rw [observer_concat]; rfl) rfl rfl (h.offers_concat hq _ _)
  start {trace q} _ h :=
    .of_closed (c := q.cursor) (by rw [observer_concat]; rfl) rfl rfl
      ((always_concat _ _).mpr ⟨h.offers, trivial⟩)
  noted {trace q event} _ hn h := by
    refine h.noted rfl fun ho => ?_
    obtain ⟨hk, hnil⟩ := hn (h.started ho)
    have hpoint : carriesPoint event = false := by
      cases hkind : event.kind <;> simp_all [Cursor.translate]
    simp [hpoint]
  device {trace q event} _ _ hk h := by
    have hc : Valid (trace ++ [.called (.submit event)]) q :=
      h.noted rfl fun _ => by simp [carriesPoint, hk]
    exact ⟨hc.started, hc.pending, hc.offers⟩
  queued {trace q event new} ha hs hk hnew _ _ _ h := by
    obtain ⟨⟨hfew, hpoints⟩, hcounted⟩ := ha
    obtain ⟨hfinite, hin⟩ := hpoints event rfl
    obtain ⟨time, hstream, htime⟩ := h.pending
    have hbatches : new.map toBatch = (q.cursor.translate event).2.map toBatch := by
      simp [← hnew, Function.comp_def]
    have hnext := valid_translate hcounted hfew time hfinite fun ho hp hb => by
      obtain ⟨last, hlast, rfl⟩ := htime ho
      exact hin hp hb last hlast
    refine ⟨fun _ => hs,
      ⟨if carriesPoint event then event.timeNanoseconds else time, ?_, ?_⟩,
      (always_concat _ _).mpr ⟨h.offers, trivial⟩⟩
    · rw [observer_concat, List.map_append, hbatches]
      exact (foldlM_append_eq_ok _ _ _ _ _).mpr ⟨_, hstream, hnext⟩
    · intro ho
      by_cases hp : carriesPoint event
      · exact ⟨event, by simp [hp], by simp [hp]⟩
      · have hcancel : event.kind = .Cancel := by
          cases hkind : event.kind <;> simp_all [carriesPoint]
        by_cases hopen : q.cursor.contactOpen
        · simp [Cursor.translate, hcancel, hopen, Cursor.closed] at ho
        · simp [Cursor.translate, hcancel, hopen] at ho
  overflow {trace q event cursor mask} _ _ _ _ _ h := by
    refine .of_closed (c := cursor) ?_ rfl rfl (h.offers.append (by simp [OffersValid]))
    rw [List.append_cons, observer_concat]
    rfl
  retried _ h := h.noted rfl (by simp)
  cancelled {trace q decision} _ _ _ h := by
    refine .of_closed (c := q.cursor) ?_ rfl rfl ?_
    · rw [List.append_cons, List.append_cons (trace ++ _), observer_concat]
      rfl
    · rw [List.append_cons, List.append_cons (trace ++ _)]
      have hstop : stopping (trace ++ [.called .stop]) := by
        simp [stopping, callsOf, CoreEvent.call?]
      refine (always_concat _ _).mpr ⟨(always_concat _ _).mpr
        ⟨(always_concat _ _).mpr ⟨h.offers, trivial⟩, ?_⟩, trivial⟩
      exact fun hnot => by simp [hstop] at hnot
  closed {trace q} _ _ h := by
    refine .of_closed (c := q.cursor) ?_ rfl rfl (h.offers.append (by simp [OffersValid]))
    rw [List.append_cons, observer_concat]
    rfl

end LightPhi.MacOS

namespace LightPhi.Apple.Session
open Base Input MacOS
variable {τ : Type*} [IDeliveryTarget τ]

/-- What Submit and RetryPending offer passes the public batch check, and no contact and no sample
identity is given twice, in every run of fewer than 2^64 events. -/
theorem offers_valid_and_new {queueCapacity : UInt32} (hpos : 0 < queueCapacity)
    (hbound : queueCapacity.toNat ≤ 2 ^ 31) (target : τ) (ops : List CoreOp)
    (hfew : (submittedBy ops).length < 2 ^ 64)
    (hcaptured : Captured (submittedBy ops)) :
    Always OffersValid (run queueCapacity target ops).target.trace ∧
      Always OffersNew (run queueCapacity target ops).target.trace := by
  have hallowed : Always (fun before op => WellTimed (run queueCapacity target before).target.trace
      (run queueCapacity target before).core.model op) ops := by
    intro before op after heq
    subst heq
    have hcalls := (run_refines hpos hbound target (fun _ _ _ => True) before
      fun _ _ _ _ => trivial).2.1
    have hevents :
        eventsIn (run queueCapacity target before).target.trace = submittedBy before := by
      rw [eventsIn, hcalls]
    cases op with
    | submit event =>
      have hsplit : submittedBy (before ++ .submit event :: after) =
          submittedBy before ++ event :: submittedBy after := by
        simp [submittedBy, CoreOp.submitted?]
      rw [hsplit] at hfew hcaptured
      refine ⟨?_, ?_⟩
      · rw [QueueModel.FewEvents, hevents]
        simp at hfew
        omega
      · intro e hall
        obtain ⟨⟩ := hall
        rw [hevents]
        exact ⟨hcaptured.finite event (by simp), hcaptured.inTime _ event _ rfl⟩
    | start | retryPending | stop => exact ⟨trivial, by simp⟩
  obtain ⟨hreach, -, -⟩ := run_refines hpos hbound target WellTimed ops hallowed
  have hcounted := QueueModel.counted_calls.weaken fun trace q op (h : WellTimed trace q op) => h.1
  have hreach := hreach.strengthened hcounted.preserves
    ⟨Nat.zero_le _, Nat.zero_le _, Nat.zero_le _, Nat.zero_le _, by simp, le_rfl⟩
  have hvalid := hreach.invariant valid_calls.preserves
    (.of_closed (c := {}) rfl rfl rfl always_nil)
  have hnumbered := hreach.invariant (QueueModel.numbered_calls.weaken
    fun trace q op h => ⟨h.1.1, h.2⟩).preserves (.of_empty rfl (by simp) (by simp) always_nil)
  exact ⟨hvalid.offers, hnumbered.offers⟩

/-- An update that is offered twice, a second contact before the first has ended, and Stop. -/
def cutOff : List CoreOp := .start :: oneRetry ++ [.submit (plainEvent .Begin), .stop]

theorem offers_valid_and_new_cutOff :
    Always OffersValid (run 2 (Script.busyFor 1 1) cutOff).target.trace ∧
      Always OffersNew (run 2 (Script.busyFor 1 1) cutOff).target.trace :=
  offers_valid_and_new (by decide) (by decide) _ _ (by decide) (.of_plain (by decide))

theorem ordinal_lt_of_offersValid {before : List CoreEvent} {mask : UInt16} {d e : Delivery}
    (hstop : stopping before = false) (hd : d.phase = .Update) (he : e.phase = .Update)
    (h : Always OffersValid (before ++ [.receive mask d .Accepted, .receive mask e .Accepted])) :
    d.batchOrdinal < e.batchOrdinal := by
  rw [List.append_cons] at h
  obtain ⟨hfirst, hsecond⟩ := (always_concat _ _).mp h
  obtain ⟨next, hnext⟩ := exists_of_isOk (((always_concat _ _).mp hfirst).2 hstop)
  have hstop' : stopping (before ++ [.receive mask d .Accepted]) = false := by
    simpa [stopping, callsOf, CoreEvent.call?] using hstop
  obtain ⟨last, hlast⟩ := exists_of_isOk (hsecond hstop')
  rw [observer_concat, observe, hnext] at hlast
  have hphase (x : Delivery) (hx : x.phase = .Update) : (toBatch x).phase = .Update := by
    simp [toBatch, toContactPhase, hx]
  exact ordinal_lt_of_validateBatch (hphase d hd) (hphase e he) hnext hlast

theorem plain_submits {ops : List CoreOp}
    (h : ∀ event, .submit event ∈ ops → event = plainEvent event.kind) :
    ∀ event ∈ submittedBy ops, event = plainEvent event.kind := by
  intro event he
  obtain ⟨op, hop, hsubmitted⟩ := List.mem_filterMap.mp he
  cases op with
  | submit e =>
    obtain rfl : e = event := Option.some.inj hsubmitted
    exact h e hop
  | start | retryPending | stop => simp [CoreOp.submitted?] at hsubmitted

theorem captured_longContact (n : Nat) :
    Captured (submittedBy (.start :: longContact n ++ [.retryPending])) := by
  refine .of_plain (plain_submits fun event he => ?_)
  have hcases : event = plainEvent .Begin ∨ event = plainEvent .Update := by
    simp only [longContact, List.mem_append, List.mem_cons, List.mem_replicate] at he
    simp_all
    tauto
  rcases hcases with rfl | rfl <;> rfl

theorem captured_begins (n : Nat) :
    Captured (submittedBy (.start :: List.replicate n (.submit (plainEvent .Begin)))) := by
  refine .of_plain (plain_submits fun event he => ?_)
  obtain hstart | hbegin := List.mem_cons.mp he
  · cases hstart
  · obtain rfl := CoreOp.submit.inj (List.eq_of_mem_replicate hbegin)
    rfl

/-- The contact after 2^64 - 1 others has the identity zero. -/
theorem zero_contact_offered {n : Nat} (hn : n = 2 ^ 64) :
    ¬ Always OffersValid (run 1 (Script.always .Rejected)
      (.start :: List.replicate n (.submit (plainEvent .Begin)))).target.trace := by
  obtain ⟨earlier, rfl⟩ : ∃ earlier, n = earlier + 1 := ⟨n - 1, by omega⟩
  obtain ⟨-, mask, d, htrace, hcontact⟩ := (begins_rejected earlier).next
  have hrun : run 1 (Script.always .Rejected)
      (.start :: List.replicate (earlier + 1) (.submit (plainEvent .Begin))) =
        ((List.replicate earlier (.submit (plainEvent .Begin))).foldl perform
          (run 1 (Script.always .Rejected) [.start])).perform (.submit (plainEvent .Begin)) := by
    rw [List.replicate_succ', run, List.foldl_cons, List.foldl_concat]
    rfl
  rw [hrun, htrace]
  intro h
  obtain ⟨next, hnext⟩ := exists_of_isOk (((always_concat _ _).mp h).2 (by
    simp [stopping, callsOf, CoreEvent.call?]))
  obtain ⟨henv, -⟩ := (validateBatch_eq_ok_iff _ _ _ _).mp hnext
  have hzero : d.contact = 0 := by
    rw [hcontact, hn]
    rfl
  exact henv.contact hzero

/-- A contact of 2^32 updates in the largest ring, and 2^64 contacts that are all rejected. -/
theorem offers_invalid :
    (Captured (submittedBy (.start :: longContact (2 ^ 32) ++ [.retryPending])) ∧
      ¬ Always OffersValid (run 0xFFFFFFFF (Script.busyFor 0xFFFFFFFE 3)
        (.start :: longContact (2 ^ 32) ++ [.retryPending])).target.trace) ∧
    (Captured (submittedBy (.start :: List.replicate (2 ^ 64) (.submit (plainEvent .Begin)))) ∧
      ¬ Always OffersValid (run 1 (Script.always .Rejected)
        (.start :: List.replicate (2 ^ 64) (.submit (plainEvent .Begin)))).target.trace) := by
  refine ⟨⟨captured_longContact _, fun h => ?_⟩, captured_begins _, zero_contact_offered rfl⟩
  obtain ⟨before, mask, a, b, c, htrace, hcalls, hb, hc, hlt⟩ := offers_behind rfl
  rw [htrace, List.append_cons] at h
  have hstop : stopping (before ++ [.receive mask a .Accepted]) = false := by
    have hlast : (callsOf (before ++ [.receive mask a .Accepted])).getLast? =
        some .retryPending := by
      simpa [callsOf, CoreEvent.call?] using hcalls
    rw [stopping, hlast]
    rfl
  exact absurd (ordinal_lt_of_offersValid hstop hb hc h) (not_lt.mpr hlt.le)

end LightPhi.Apple.Session
