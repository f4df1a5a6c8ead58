import LightPhi.Fake.Dialogue
import LightPhi.MacOS.Answers
import LightPhi.MacOS.NothingLost

/-! The fake source stands in for the macOS source: it can hand a receiver whatever a session of
the macOS source hands it, and the receiver cannot tell the two apart. -/
namespace LightPhi.MacOS
open Base Input Apple
open Fake (IInputReceiver Handover MayFollow)
variable {ι ω : Type*}

/-- The source did not fail. -/
def NoFailure (events : List CoreEvent) : Prop := ∀ failure, .failed failure ∉ events

theorem noFailure_cons {event : CoreEvent} {events : List CoreEvent}
    (h : NoFailure (event :: events)) :
    (∀ failure, event ≠ .failed failure) ∧ NoFailure events :=
  ⟨fun failure he => h failure (he ▸ List.mem_cons_self), fun failure hmem =>
    h failure (List.mem_cons_of_mem _ hmem)⟩

section Visible
variable {receiver : ι} {events : List CoreEvent}

/-- A session that is still open behind the events has not failed. -/
theorem noFailure_of_session {past : List (SourceEvent ι)} {other : ι}
    (h : sessionOf (past ++ events.filterMap (visible (some receiver))) = some other) :
    NoFailure events := by
  induction events using List.reverseRecOn with
  | nil => exact fun failure => List.not_mem_nil
  | append_singleton events event ih =>
    rw [List.filterMap_append, ← List.append_assoc] at h
    intro failure hmem
    cases event with
    | failed last =>
      have hshown : visible (some receiver) (.failed last) =
        some (.sourceFailed receiver .Overflow) := rfl
      rw [List.filterMap_cons_some hshown, List.filterMap_nil, sessionOf_concat] at h
      cases h
    | called op | stopped =>
      rw [List.filterMap_cons_none rfl, List.filterMap_nil, List.append_nil] at h
      exact ih h failure (by simpa using hmem)
    | receive mask d decision =>
      have hshown : visible (some receiver) (.receive mask d decision) =
        some (.receive receiver (toBatch d) (toResult decision)) := rfl
      rw [List.filterMap_cons_some hshown, List.filterMap_nil, sessionOf_concat] at h
      exact ih h failure (by simpa using hmem)

/-- What the receiver has heard is what was offered. -/
theorem heard_visible (h : NoFailure events) (state : DeliveryState) :
    (events.filterMap (visible (some receiver))).foldl observeReceiver state =
      (offerings events).foldl (Fake.hear publicCapabilities) state := by
  induction events generalizing state with
  | nil => rfl
  | cons event events ih =>
    obtain ⟨hevent, hlater⟩ := noFailure_cons h
    cases event with
    | failed failure => exact absurd rfl (hevent failure)
    | called op | stopped => exact ih hlater state
    | receive mask d decision =>
      have hone : observeReceiver state (.receive receiver (toBatch d) (toResult decision)) =
          Fake.hear publicCapabilities state (toBatch d, toResult decision) := by
        cases decision <;> rfl
      have hshown : visible (some receiver) (.receive mask d decision) =
        some (.receive receiver (toBatch d) (toResult decision)) := rfl
      rw [List.filterMap_cons_some hshown, List.foldl_cons, hone]
      exact ih hlater _

theorem lived_visible [IInputReceiver ι ω] (h : NoFailure events) (world : ω) :
    (events.filterMap (visible (some receiver))).foldl lived world =
      Fake.worldAfter receiver world (offerings events) := by
  induction events generalizing world with
  | nil => rfl
  | cons event events ih =>
    obtain ⟨hevent, hlater⟩ := noFailure_cons h
    cases event with
    | failed failure => exact absurd rfl (hevent failure)
    | called op | stopped => exact ih hlater world
    | receive mask d decision =>
      have hshown : visible (some receiver) (.receive mask d decision) =
        some (.receive receiver (toBatch d) (toResult decision)) := rfl
      rw [List.filterMap_cons_some hshown]
      exact ih hlater _

end Visible

theorem handedOver_stopped (receiver : ι) (batches : List InputBatch)
    (answer : InputBatch → DeliveryResult) :
    handedOver ((batches.map fun batch => SourceEvent.receive receiver batch (answer batch)) ++
      [.stopped]) = batches.map fun batch => (batch, answer batch) := by
  have hone : handedOver [(.stopped : SourceEvent ι)] = [] := rfl
  rw [handedOver_append, hone, List.append_nil, handedOver, List.filterMap_map]
  exact congrFun List.filterMap_eq_map' batches

/-- Within a session, the last offering is the last offer. -/
theorem offerings_lastOffer {events : List CoreEvent} (h : .called .start ∉ events) :
    (offerings events).getLast? =
      (lastOffer events).map fun last => (toBatch last.1, toResult last.2) := by
  induction events using List.reverseRecOn with
  | nil => rfl
  | append_singleton events event ih =>
    have hbefore : .called .start ∉ events := fun hmem => h (List.mem_append_left _ hmem)
    rw [offerings_append]
    cases event with
    | called op =>
      have hop : op ≠ .start := by
        rintro rfl
        exact h (by simp)
      rw [lastOffer_called _ op hop, ← ih hbefore]
      simp [offerings, offering?]
    | receive mask d decision =>
      rw [lastOffer_receive]
      simp [offerings, offering?]
    | stopped | failed failure => simpa [offerings, offering?, lastOffer] using ih hbefore

/-- A batch that was refused last was refused to the core last. -/
theorem refused_of_refusedBatch {events : List CoreEvent} (h : .called .start ∉ events)
    {batch : InputBatch} (hrefused : Fake.refusedBatch (offerings events).getLast? = some batch) :
    ∃ d, refused events = some d ∧ toBatch d = batch := by
  rw [offerings_lastOffer h] at hrefused
  rw [refused]
  cases hlast : lastOffer events with
  | none =>
    rw [hlast] at hrefused
    cases hrefused
  | some last =>
    obtain ⟨d, decision⟩ := last
    rw [hlast] at hrefused
    cases decision with
    | Busy => exact ⟨d, rfl, Option.some.inj hrefused⟩
    | Accepted | Rejected => cases hrefused

namespace InputSource
variable [IInputReceiver ι ω] {receiver : ι} {acceptPointerFallback : Bool}
  {first s : InputSource ι (Observed ι ω)} {bound : Nat} {before steps : List (SourceStep ι)}
  {trace : List CoreEvent} {ops : List CoreOp} {events : List CoreEvent}

omit [IInputReceiver ι ω] in
/-- A session hands a refused batch over again before any other. -/
theorem Conducted.retries (h : Conducted receiver acceptPointerFallback first steps ops events s) :
    Always OffersRefused events := by
  have hbegun : QueueModel.RefusedAtHead [] first.session.core.model ∧ Always OffersRefused [] :=
    ⟨fun _ r hr => absurd hr (by simp [refused, lastOffer]), always_nil⟩
  have hkept := h.serves.preserves_where QueueModel.offersRefused_calls.preserves
    (fun before op after hsplit _ _ _ => h.running op (by rw [hsplit]; simp)) hbegun
  exact hkept.2

/-- What a session hands over may follow what it handed over before. -/
theorem Conducted.mayFollow {world : ω} {all : List (SourceStep ι)}
    (h : Conducted receiver acceptPointerFallback first steps ops events s)
    (hfirst : first.Lives world) (hlives : s.Lives world)
    (hreached : Reached bound before trace first) (hbehind : Reached bound all (trace ++ events) s)
    (happKit : FromAppKit all) (hfresh : observed first.trace = {}) :
    Always (MayFollow publicCapabilities receiver first.session.target.world.world)
      (offerings events) := by
  intro handed next after heq
  obtain ⟨earlier, later, mask, d, decision, hsplit, rfl, rfl⟩ := offer_of_offerings heq
  have hseen : s.trace = (first.trace ++ earlier.filterMap (visible (some receiver))) ++
      .receive receiver (toBatch d) (toResult decision) ::
        later.filterMap (visible (some receiver)) := by
    rw [h.shown, hsplit, List.filterMap_append, List.append_assoc]
    rfl
  have hopen := hbehind.orderly.inSession.rule _ _ _ hseen
  have hclean := noFailure_of_session hopen
  have hcalls : .called .start ∉ earlier := fun hmem =>
    (served_running h.serves h.running (.called .start)
      (by rw [hsplit]; exact List.mem_append_left _ hmem)).1 rfl
  constructor
  · have hvalid := hreached.handed_over receiver h.running h.serves hbehind happKit hsplit
    rw [observed_append, hfresh, heard_visible hclean] at hvalid
    exact hvalid
  · intro batch hbatch
    obtain ⟨r, hr, rfl⟩ := refused_of_refusedBatch hcalls hbatch
    have hagain := h.retries earlier (.receive mask d decision) later hsplit
    exact congrArg toBatch (hagain r hr)
  · have hanswer := hlives.answered _ _ _ hseen
    have hworld : worldBehind world first.trace = first.session.target.world.world :=
      hfirst.world.symm
    rw [Answered, worldBehind_append, hworld, lived_visible hclean] at hanswer
    exact hanswer

/-- The cancellation that Stop offers, where it offers one. -/
def stopBatch (s : InputSource ι (Observed ι ω)) : Option InputBatch :=
  if s.session.core.contactOpen then some (toBatch s.session.core.cursor.cancellation) else none

/-- Stop offers the receiver that cancellation, once, and nothing else. -/
theorem Reached.stop_handed (hpos : 0 < bound) (h : Reached bound steps trace s)
    (hreceiver : s.receiver = some receiver) {world : ω} (hlives : s.Lives world) :
    (s.perform .stop).trace = s.trace ++ (s.stopBatch.toList.map fun batch =>
      .receive receiver batch
        (IInputReceiver.receive receiver batch s.session.target.world.world).1) ++ [.stopped] := by
  obtain ⟨events, hcall, hshown, -⟩ := h.stop hpos
  have hanswered := (hlives.perform .stop).answered
  have hstarted : s.session.core.started := by
    rw [← h.orderly.consistent.receiver, hreceiver]
    rfl
  have hbegan : worldBehind world s.trace = s.session.target.world.world := hlives.world.symm
  have htrace : (s.perform .stop).session.target.world.trace = (s.perform .stop).trace := rfl
  rw [hreceiver] at hshown
  rw [htrace, hshown] at hanswered
  rw [hshown, stopBatch]
  generalize (s.perform .stop).session.core.model = last at hcall
  cases hcall with
  | cancelled hs hopen =>
    have hopen' : s.session.core.contactOpen = true := hopen
    have hanswer := hanswered s.trace _ [.stopped] (List.append_assoc ..)
    rw [Answered, hbegan] at hanswer
    rw [if_pos hopen', Option.toList_some, List.map_singleton]
    exact congrArg (fun result => s.trace ++ [SourceEvent.receive receiver _ result] ++ [.stopped])
      hanswer.symm
  | closed hclosed =>
    have hopen' : ¬ s.session.core.contactOpen := fun hopen => hclosed ⟨hstarted, hopen⟩
    rw [if_neg hopen']
    rfl

omit [IInputReceiver ι ω] in
/-- What the receiver has heard in a session that has not failed. -/
theorem Conducted.heard_dialogue
    (h : Conducted receiver acceptPointerFallback first steps ops events s)
    (hfresh : observed first.trace = {}) (hclean : NoFailure events) :
    observed s.trace = Fake.heard publicCapabilities (offerings events) := by
  rw [h.shown, observed_append, hfresh, heard_visible hclean]
  rfl

omit [IInputReceiver ι ω] in
/-- Where nothing waits, the receiver stands where the capturing side does. -/
theorem Reached.stands (h : Reached bound steps trace s) (happKit : FromAppKit steps)
    (hpending : s.session.core.pending = []) :
    ∃ time, MacOS.observed s.trace = stateAt s.session.core.cursor time := by
  obtain ⟨time, hstream, -⟩ := (h.valid happKit).pending
  have hempty : s.session.core.model.pending = [] := hpending
  rw [hempty] at hstream
  rw [h.observed]
  exact ⟨time, Except.ok.inj hstream⟩

omit [IInputReceiver ι ω] in
/-- Where nothing waits, a fake source that has handed over the same offers the same
cancellation. -/
theorem stopBatch_eq {cursor : Cursor} {time : UInt64} {fake : Fake.Session ι (Fake.Recorded ι ω)}
    (hdelivered : Fake.Delivered (stateAt cursor time) fake.source.deliveredContact
      fake.source.deliveredBatchOrdinal) (hcursor : s.session.core.cursor = cursor) :
    fake.stopBatch = s.stopBatch := by
  have hopen : s.session.core.contactOpen = cursor.contactOpen :=
    congrArg Cursor.contactOpen hcursor
  rw [Fake.Session.stopBatch, stopBatch, hopen, hcursor]
  by_cases hcontact : cursor.contactOpen
  · have hstate : (stateAt cursor time).contactOpen = true := by rw [stateAt, if_pos hcontact]
    rw [Fake.Delivered, if_pos hstate, stateAt, if_pos hcontact] at hdelivered
    obtain ⟨hsame, hne, hordinal⟩ := hdelivered
    rw [if_pos hne, if_pos hcontact, Fake.FakeInputSource.cancelBatch, hsame, hordinal]
    rfl
  · have hstate : (stateAt cursor time).contactOpen = false := by
      rw [stateAt, if_neg hcontact]
    rw [Fake.Delivered, hstate, if_neg Bool.false_ne_true] at hdelivered
    rw [if_neg (not_not.mpr hdelivered), if_neg hcontact]

omit [IInputReceiver ι ω] in
/-- A session that is still open has not failed. -/
theorem Conducted.noFailure (h : Conducted receiver acceptPointerFallback first steps ops events s)
    (horderly : s.Orderly) (hopen : s.receiver = some receiver) : NoFailure events := by
  have hsession : sessionOf s.trace = some receiver := horderly.inSession.session.trans hopen
  rw [h.shown] at hsession
  exact noFailure_of_session hsession

/-- The world has been through the dialogue of the session. -/
theorem Conducted.world {world : ω}
    (h : Conducted receiver acceptPointerFallback first steps ops events s)
    (hfirst : first.Lives world) (hlives : s.Lives world) (hclean : NoFailure events) :
    Fake.worldAfter receiver first.session.target.world.world (offerings events) =
      s.session.target.world.world := by
  have hbegan : worldBehind world first.trace = first.session.target.world.world :=
    hfirst.world.symm
  have hends : s.session.target.world.world = worldBehind world s.trace := hlives.world
  rw [hends, h.shown, worldBehind_append, hbegan, lived_visible hclean]

/-- A receiver that was just bound has heard nothing. -/
theorem observed_started {source : InputSource ι (Observed ι ω)} {appKit : AppKit}
    (hstarted : ((run source before).start receiver appKit).1 = .ok ()) :
    observed (run source (before ++ [.start receiver appKit])).trace = {} := by
  have hnoted : (run source (before ++ [.start receiver appKit])).trace =
      ((run source before).start receiver appKit).2.trace ++ [.started receiver (.ok ())] := by
    rw [run, List.foldl_concat, ← hstarted]
    rfl
  rw [hnoted, observed_append]
  rfl

/-- A fake source told to hand over the dialogue of a session, in the world it began in. -/
structure Rehearses (receiver : ι) (dialogue : List Handover) (last : InputSource ι (Observed ι ω))
    (fake : Fake.Session ι ω) : Prop where
  log : Machine.log Fake.Session.answer fake ((Fake.performance receiver dialogue).map Prod.fst) =
    Fake.performance receiver dialogue
  calls : fake.receiverCalls ((Fake.performance receiver dialogue).map Prod.fst) =
    dialogue.map fun next => .receive receiver next.1 next.2
  world : last.receiver = some receiver → (Machine.after Fake.Session.answer fake
    ((Fake.performance receiver dialogue).map Prod.fst)).world = last.session.target.world.world
  stop : last.receiver = some receiver → last.session.core.pending = [] →
    fake.receiverCalls ((Fake.performance receiver dialogue).map Prod.fst ++ [.op .stop]) =
      (dialogue ++ handedOver ((last.perform .stop).trace.drop last.trace.length)).map fun next =>
        .receive receiver next.1 next.2

/-- Whatever a session of the macOS source hands its receiver, and whatever the receiver answers,
a fake source with the same bound on its batches can be made to hand over: every call succeeds, the
receiver is called with the same batches in the same order, and, where nothing waits, Stop offers
the same cancellation. -/
theorem rehearses_session {memory : Fake.Memory} {descriptor : InputSourceDescriptor} {world : ω}
    {source : InputSource ι (Observed ι ω)}
    (h : create memory descriptor { world := world } = .ok source)
    (before : List (SourceStep ι)) {appKit : AppKit}
    (hstarted : ((run source before).start receiver appKit).1 = .ok ())
    (steps : List (SourceStep ι)) (hsteps : ∀ step ∈ steps, InSession step)
    (hfew : 2 * (before ++ .start receiver appKit :: steps).length < 2 ^ 64)
    (happKit : FromAppKit (before ++ .start receiver appKit :: steps))
    {fakeMemory : Fake.Memory} {fakeDescriptor : Fake.FakeInputSourceDescriptor}
    {fakeSource : Fake.FakeInputSource ι}
    (hfake : Fake.FakeInputSource.create fakeMemory fakeDescriptor = .ok fakeSource)
    (hcapabilities : fakeDescriptor.capabilities = publicCapabilities) :
    let first := run source (before ++ [.start receiver appKit])
    let last := run first steps
    Rehearses receiver (handedOver (last.trace.drop first.trace.length)) last
      { source := fakeSource, world := first.session.target.world.world } := by
  intro first last
  obtain ⟨trace, ops, events, hreached, hbehind, hconducted, -⟩ :=
    session_conducted h before hstarted steps hsteps hfew
  have hfirst : first.Lives world := run_lives (lives_of_create h) _
  have hlast : last.Lives world := run_lives hfirst steps
  have hfresh := observed_started hstarted
  have happKit' : FromAppKit (before ++ [.start receiver appKit] ++ steps) := by
    rwa [List.append_assoc]
  have hdialogue : handedOver (last.trace.drop first.trace.length) = offerings events := by
    have hshown : last.trace = first.trace ++ events.filterMap (visible (some receiver)) :=
      hconducted.shown
    rw [hshown, List.drop_left, handedOver_visible]
  have hmay := hconducted.mayFollow hfirst hlast hreached hbehind happKit' hfresh
  rw [← hcapabilities] at hmay
  have hlog := Fake.Session.log_performance hfake hmay
  have hcalls := Fake.Session.receiverCalls_performance hfake hmay
  obtain ⟨-, hworld, -⟩ := Fake.Session.performs_dialogue hfake hmay
  obtain ⟨hcancelled, hdelivered⟩ := Fake.Session.stops_dialogue hfake hmay
  rw [hdialogue]
  refine ⟨hlog, hcalls, fun hopen => ?_, fun hopen hpending => ?_⟩
  · exact hworld.trans
      (hconducted.world hfirst hlast (hconducted.noFailure hbehind.orderly hopen))
  · have hclean := hconducted.noFailure hbehind.orderly hopen
    have hstopped := hbehind.stop_handed (reached_of_create h).1 hopen hlast
    obtain ⟨time, hstate⟩ := hbehind.stands happKit' hpending
    rw [hcapabilities, ← hconducted.heard_dialogue hfresh hclean, hstate] at hdelivered
    rw [stopBatch_eq hdelivered rfl, hconducted.world hfirst hlast hclean] at hcancelled
    rw [hcancelled, hstopped, List.append_assoc, List.drop_left, handedOver_stopped,
      List.map_append, List.map_map]
    rfl

/-- A fake source with room for one batch of one sample. -/
def oneBatch : Fake.FakeInputSourceDescriptor :=
  { capabilities := publicCapabilities, maximumQueuedBatches := 1 }

/-- The drag that waits behind a closure, rehearsed. -/
theorem rehearses_session_waiting :
    let first := run oneSlot ([] ++ [.start () {}])
    let last := run first waitingDrag
    Rehearses () (handedOver (last.trace.drop first.trace.length)) last
      { source := .allocate oneBatch, world := first.session.target.world.world } := by
  have hsteps : ∀ step ∈ waitingDrag, InSession step := by
    intro step hstep
    simp only [waitingDrag, List.mem_cons, List.not_mem_nil, or_false] at hstep
    rcases hstep with rfl | rfl | rfl <;> exact ⟨by simp, by simp⟩
  have hzero : Binary64.zero.isFinite := by decide
  have hplain : ∀ event ∈ mouseEvents ([] ++ .start () {} :: waitingDrag),
      event = { type := event.type } := by decide
  have happKit : FromAppKit ([] ++ .start () {} :: waitingDrag) := by
    refine ⟨fun event hevent => ?_, by decide⟩
    rw [hplain event hevent]
    exact ⟨hzero, hzero, fun _ => ⟨hzero, hzero, hzero, hzero⟩⟩
  have hfake : Fake.FakeInputSource.create (ι := Unit) {} oneBatch = .ok (.allocate oneBatch) := by
    rfl
  exact rehearses_session oneSlot_created [] rfl waitingDrag hsteps (by decide) happKit hfake rfl

end InputSource
end LightPhi.MacOS
