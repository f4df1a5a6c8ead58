import LightPhi.Input.CommittedOrder
import LightPhi.Input.FirstOffender
import Mathlib.Logic.Relation

/-! How a contact is cut into batches: two deliveries made into one, and one cut into two, are
checked alike as long as no correction is parted from its prediction. -/
namespace LightPhi.Input
open Base

/-- Two deliveries as one, under the later ordinal. -/
def InputBatch.join (a b : InputBatch) : InputBatch :=
  { b with
    phase := if a.phase = .Begin then .Begin else b.phase
    samples := a.samples ++ b.samples }

/-- Two batches of one contact that a source may deliver as one: nothing in the second refers to
predictions of the first. -/
structure Joins (C : InputSourceCapabilities) (a b : InputBatch) : Prop where
  contact : a.contact = b.contact
  first : a.phase = .Begin ∨ a.phase = .Update
  second : b.phase = .Update ∨ a.phase = .Update ∧ b.phase = .End
  nonempty : a.samples ≠ []
  update : b.phase = .Update → b.samples ≠ []
  ordinal : a.batchOrdinal < b.batchOrdinal
  bound : a.samples.length + b.samples.length ≤
    min C.maximumBatchSamples.toNat maximumBatchSamples
  unpredicted : ∀ s ∈ a.samples, s.origin ≠ .Predicted
  uncorrected : ∀ s ∈ b.samples, s.origin ≠ .Corrected

/-- How a sample that is no correction moves the totals on. -/
def passed (s : InputSample) (loop : SampleLoop) : SampleLoop :=
  let entered := entering loop s.id.value (max loop.scan.timestamp s.timeNanoseconds)
  let checked := match s.origin with
    | .Measured | .Coalesced => { entered with scan.committedSequence := s.sequence }
    | .Predicted => { entered with
        predictionIds := loop.predictionIds.setIfInBounds loop.scan.predictionCount s.id
        predictionSequences :=
          loop.predictionSequences.setIfInBounds loop.scan.predictionCount s.sequence
        scan.predictionCount := loop.scan.predictionCount + 1 }
    | .Corrected | .Invented _ => entered
  { checked with lastSequenceInBatch := s.sequence }

theorem passed_last (s : InputSample) (loop : SampleLoop) (sequence : UInt64) :
    passed s { loop with lastSequenceInBatch := sequence } = passed s loop := by
  unfold passed
  cases s.origin with
  | Measured | Coalesced => rfl
  | Predicted => rfl
  | Corrected => rfl
  | Invented e => rfl

/-- What a sample that is no correction must satisfy, given the totals, and `behind` others of its
batch. -/
structure PassesUncorrected (C : InputSourceCapabilities) (behind : Prop) (s : InputSample)
    (loop : SampleLoop) : Prop where
  contract : SampleContract C s
  identity : loop.scan.sampleId < s.id.value
  sequence : behind → loop.lastSequenceInBatch ≤ s.sequence
  time : supports C .Timestamp → loop.scan.timestamp ≤ s.timeNanoseconds
  committed : loop.scan.committedSequence < s.sequence
  prediction : s.origin = .Predicted → 0 < loop.scan.predictionCount →
    loop.predictionSequences[loop.scan.predictionCount - 1]?.getD 0 < s.sequence

section Sample
variable {b : InputBatch} {C : InputSourceCapabilities} {previous : DeliveryState}
  {index : Nat} {s : InputSample} {loop next : SampleLoop}

theorem validateOrigin_uncorrected (hs : s.origin ≠ .Corrected) (hcontract : SampleContract C s)
    (b : InputBatch) (previous : DeliveryState) (index : Nat) (loop next : SampleLoop) :
    (∃ checked, validateOrigin b previous index s
        (entering loop s.id.value (max loop.scan.timestamp s.timeNanoseconds)) = .ok checked ∧
      { checked with lastSequenceInBatch := s.sequence } = next) ↔
      loop.scan.committedSequence < s.sequence ∧
      (s.origin = .Predicted → 0 < loop.scan.predictionCount →
        loop.predictionSequences[loop.scan.predictionCount - 1]?.getD 0 < s.sequence) ∧
      passed s loop = next := by
  have hdefined := hcontract.origin
  cases ho : s.origin with
  | Corrected => exact absurd ho hs
  | Measured | Coalesced =>
    simp [validateOrigin, ho, validateObserved_eq_ok, passed, entering, and_assoc]
  | Predicted =>
    simp [validateOrigin, ho, validatePredicted_eq_ok, passed, entering, and_assoc]
  | Invented e => simp [ho] at hdefined

/-- Unless it is a correction, a sample sees only the totals: nothing of the batch around it. -/
theorem validateSample_uncorrected_iff (hs : s.origin ≠ .Corrected) :
    validateSample b C previous index s loop = .ok next ↔
      PassesUncorrected C (0 < index) s loop ∧ passed s loop = next := by
  unfold validateSample fail
  cases hv : validate s C with
  | error e =>
    simp only [reduceCtorEq, false_iff]
    intro h
    simpa [hv] using (validate_eq_ok s C).mpr h.1.contract
  | ok u =>
    have hcontract := (validate_eq_ok s C).mp hv
    dsimp only
    split_ifs with hid hsequence htime
    · simp only [false_iff]
      exact fun h => not_lt.mpr hid h.1.identity
    · simp only [false_iff]
      exact fun h => not_lt.mpr (h.1.sequence hsequence.1) hsequence.2
    · simp only [false_iff]
      exact fun h => not_lt.mpr (h.1.time htime.1) htime.2
    · have horigin := validateOrigin_uncorrected hs hcontract b previous index loop next
      simp only [bind_eq_ok, Except.ok.injEq]
      rw [entering] at horigin
      rw [horigin]
      constructor
      · intro h
        obtain ⟨hcommitted, hprediction, hnext⟩ := h
        exact ⟨⟨hcontract, not_le.mp hid, fun hpos => not_lt.mp fun hlt => hsequence ⟨hpos, hlt⟩,
          fun hC => not_lt.mp fun hlt => htime ⟨hC, hlt⟩, hcommitted, hprediction⟩, hnext⟩
      · intro h
        exact ⟨h.1.committed, h.1.prediction, h.2⟩

/-- The first sample of a batch passes just where it passes behind others. -/
theorem validateSample_first {b' : InputBatch} {previous' : DeliveryState}
    (hs : s.origin ≠ .Corrected)
    (hlast : loop.lastSequenceInBatch ≤ loop.scan.committedSequence) :
    validateSample b C previous index s loop = .ok next ↔
      validateSample b' C previous' 0 s { loop with lastSequenceInBatch := 0 } = .ok next := by
  rw [validateSample_uncorrected_iff hs, validateSample_uncorrected_iff hs]
  apply and_congr
  · constructor
    · intro h
      exact ⟨h.contract, h.identity, fun hpos => absurd hpos (lt_irrefl 0), h.time, h.committed,
        h.prediction⟩
    · intro h
      exact ⟨h.contract, h.identity, fun _ => hlast.trans h.committed.le, h.time, h.committed,
        h.prediction⟩
  · rw [passed_last s loop 0]

end Sample

section Loop
variable {b b' : InputBatch} {C : InputSourceCapabilities} {previous previous' : DeliveryState}
  {index index' : Nat} {samples : List InputSample} {loop next : SampleLoop}

theorem validateSamplesFrom_cons (s : InputSample) :
    validateSamplesFrom b C previous index (s :: samples) loop = .ok next ↔
      ∃ middle, validateSample b C previous index s loop = .ok middle ∧
        validateSamplesFrom b C previous (index + 1) samples middle = .ok next := by
  rw [validateSamplesFrom, bind_eq_ok]

theorem validateSamplesFrom_uncorrected (hs : ∀ s ∈ samples, s.origin ≠ .Corrected)
    (hindex : 0 < index) (hindex' : 0 < index') :
    validateSamplesFrom b C previous index samples loop = .ok next ↔
      validateSamplesFrom b' C previous' index' samples loop = .ok next := by
  induction samples generalizing index index' loop with
  | nil => rfl
  | cons s samples ih =>
    obtain ⟨hfirst, hrest⟩ := List.forall_mem_cons.mp hs
    rw [validateSamplesFrom_cons, validateSamplesFrom_cons]
    apply exists_congr
    intro middle
    apply and_congr
    · rw [validateSample_uncorrected_iff hfirst, validateSample_uncorrected_iff hfirst]
      simp only [hindex, hindex']
    · exact ih hrest (Nat.succ_pos index) (Nat.succ_pos index')

/-- So the samples of a batch pass just where they pass behind others. -/
theorem validateSamplesFrom_first (hne : samples ≠ []) (hs : ∀ s ∈ samples, s.origin ≠ .Corrected)
    (hlast : loop.lastSequenceInBatch ≤ loop.scan.committedSequence) :
    validateSamplesFrom b C previous index samples loop = .ok next ↔
      validateSamplesFrom b' C previous' 0 samples { loop with lastSequenceInBatch := 0 } =
        .ok next := by
  cases samples with
  | nil => exact absurd rfl hne
  | cons s samples =>
    obtain ⟨hfirst, hrest⟩ := List.forall_mem_cons.mp hs
    rw [validateSamplesFrom_cons, validateSamplesFrom_cons]
    apply exists_congr
    intro middle
    apply and_congr
    · exact validateSample_first hfirst hlast
    · exact validateSamplesFrom_uncorrected hrest (Nat.succ_pos index) (Nat.succ_pos 0)

/-- Without predictions nothing is kept for correction, and the last sequence is committed. -/
structure Unpredicted (loop : SampleLoop) : Prop where
  count : loop.scan.predictionCount = 0
  ids : loop.predictionIds = Vector.replicate _ default
  sequences : loop.predictionSequences = Vector.replicate _ default
  last : loop.lastSequenceInBatch ≤ loop.scan.committedSequence

theorem unpredicted_startScan (state : DeliveryState) : Unpredicted (startScan state) where
  count := rfl
  ids := rfl
  sequences := rfl
  last := UInt64.zero_le

theorem validateSample_corrected {s : InputSample} (hs : s.origin = .Corrected)
    (h : validateSample b C previous index s loop = .ok next) :
    next.scan.predictionCount = loop.scan.predictionCount ∧
      next.predictionIds = loop.predictionIds ∧
      next.predictionSequences = loop.predictionSequences ∧
      next.lastSequenceInBatch ≤ next.scan.committedSequence := by
  unfold validateSample fail at h
  cases hv : validate s C with
  | error e => simp [hv] at h
  | ok u =>
    rw [hv] at h
    dsimp only at h
    split_ifs at h
    obtain ⟨checked, hchecked, hnext⟩ := (bind_eq_ok _ _ _).mp h
    obtain rfl := Except.ok.inj hnext
    rw [validateOrigin, hs] at hchecked
    unfold validateCorrected fail at hchecked
    split_ifs at hchecked
    obtain rfl := Except.ok.inj hchecked
    exact ⟨rfl, rfl, rfl, le_max_right _ _⟩

theorem Unpredicted.validateSample {s : InputSample} (hloop : Unpredicted loop)
    (hs : s.origin ≠ .Predicted) (h : validateSample b C previous index s loop = .ok next) :
    Unpredicted next := by
  by_cases hcorrected : s.origin = .Corrected
  · obtain ⟨hcount, hids, hsequences, hlast⟩ := validateSample_corrected hcorrected h
    exact ⟨hcount.trans hloop.count, hids.trans hloop.ids, hsequences.trans hloop.sequences, hlast⟩
  · obtain ⟨hpasses, rfl⟩ := (validateSample_uncorrected_iff hcorrected).mp h
    have hdefined := hpasses.contract.origin
    unfold passed
    cases ho : s.origin with
    | Corrected => exact absurd ho hcorrected
    | Predicted => exact absurd ho hs
    | Measured | Coalesced => exact ⟨hloop.count, hloop.ids, hloop.sequences, le_rfl⟩
    | Invented e => simp [ho] at hdefined

theorem Unpredicted.validateSamplesFrom (hloop : Unpredicted loop)
    (hs : ∀ s ∈ samples, s.origin ≠ .Predicted)
    (h : validateSamplesFrom b C previous index samples loop = .ok next) : Unpredicted next := by
  induction samples generalizing index loop with
  | nil =>
    obtain rfl := Except.ok.inj h
    exact hloop
  | cons s samples ih =>
    obtain ⟨hfirst, hrest⟩ := List.forall_mem_cons.mp hs
    obtain ⟨middle, hmiddle, h⟩ := validateSamplesFrom_cons s |>.mp h
    exact ih (hloop.validateSample hfirst hmiddle) hrest h

end Loop

section Batch
variable {C : InputSourceCapabilities} {a b : InputBatch} {state state' next : DeliveryState}

theorem envelopeRule_iff (hphase : b.phase = .Begin ∨ b.phase = .Update ∨ b.phase = .End)
    (hbound : b.samples.length ≤ min C.maximumBatchSamples.toNat maximumBatchSamples)
    (hnonempty : b.phase = .Begin ∨ b.phase = .Update → b.samples ≠ []) :
    EnvelopeRule C b ↔ b.contact.value ≠ 0 := by
  constructor
  · exact fun h => h.contact
  · intro hcontact
    refine ⟨hcontact, ?_, hbound, hnonempty, ?_⟩
    · rcases hphase with h | h | h <;> simp [h]
    · rcases hphase with h | h | h <;> simp [h]

namespace Joins
variable (h : Joins C a b)
include h

theorem envelopes : EnvelopeRule C (a.join b) ↔ EnvelopeRule C a ∧ EnvelopeRule C b := by
  have hbound := h.bound
  have hfirst : EnvelopeRule C a ↔ a.contact.value ≠ 0 :=
    envelopeRule_iff (by have := h.first; tauto) (by omega) fun _ => h.nonempty
  have hsecond : EnvelopeRule C b ↔ b.contact.value ≠ 0 := by
    apply envelopeRule_iff
    · have := h.second
      tauto
    · omega
    · rintro (hbegin | hupdate)
      · rcases h.second with hupdate | hend
        · rw [hbegin] at hupdate
          cases hupdate
        · rw [hbegin] at hend
          cases hend.2
      · exact h.update hupdate
  have hjoined : EnvelopeRule C (a.join b) ↔ b.contact.value ≠ 0 := by
    apply envelopeRule_iff
    · rw [InputBatch.join]
      have := h.second
      split_ifs <;> tauto
    · rw [InputBatch.join, List.length_append]
      exact hbound
    · intro _ hnil
      exact h.nonempty (List.append_eq_nil_iff.mp hnil).1
  rw [hfirst, hsecond, hjoined, h.contact, and_self]

theorem stays : ¬ (a.phase = .End ∨ a.phase = .Cancel) := by
  rcases h.first with hphase | hphase <;> simp [hphase]

/-- The first batch does not close the contact, and the second goes on with it. -/
theorem enters (henter : enterContact a state = .ok next) (loop : SampleLoop) :
    enterContact b (leaveBatch a next loop) = .ok (leaveBatch a next loop) := by
  have hopen : next.contactOpen = true ∧ next.contact = a.contact := by
    rcases (enterContact_eq_ok_iff a state next).mp henter with hbegin | hgoes
    · obtain ⟨-, -, rfl⟩ := hbegin
      exact ⟨rfl, rfl⟩
    · obtain ⟨-, hopen, hcontact, -, rfl⟩ := hgoes
      exact ⟨hopen, hcontact⟩
  apply (enterContact_eq_ok_iff _ _ _).mpr
  rw [leaveBatch, if_neg h.stays]
  refine Or.inr ⟨?_, hopen.1, hopen.2.trans h.contact, h.ordinal, rfl⟩
  rcases h.second with hphase | hphase <;> simp [hphase]

theorem leaves (loop loop' : SampleLoop)
    (hloop : b.samples ≠ [] → loop' = loop) (first : SampleLoop) :
    leaveBatch (a.join b) next loop = leaveBatch b (leaveBatch a next first) loop' := by
  rcases h.second with hupdate | hend
  · obtain rfl := hloop (h.update hupdate)
    have hopen : ¬ ((a.join b).phase = .End ∨ (a.join b).phase = .Cancel) := by
      rw [InputBatch.join]
      split_ifs <;> simp [hupdate]
    have hsecond : ¬ (b.phase = .End ∨ b.phase = .Cancel) := by simp [hupdate]
    rw [leaveBatch, leaveBatch, leaveBatch, if_neg hopen, if_neg h.stays, if_neg hsecond]
    rfl
  · have hclosed : (a.join b).phase = .End := by
      rw [InputBatch.join, if_neg (by simp [hend.1])]
      exact hend.2
    rw [leaveBatch, if_pos (Or.inl hclosed), leaveBatch, if_pos (Or.inl hend.2)]

theorem enterContact_join (hordinal : a.phase = .Update → state.contactOpen →
      state.lastBatchOrdinal < a.batchOrdinal) :
    enterContact (a.join b) state = .ok state' ↔
      ∃ next, enterContact a state = .ok next ∧
        { next with lastBatchOrdinal :=
            if a.phase = .Begin then b.batchOrdinal else next.lastBatchOrdinal } = state' := by
  simp only [enterContact_eq_ok_iff]
  rcases h.first with hbegin | hupdate
  · have hjoined : (a.join b).phase = .Begin := by rw [InputBatch.join, if_pos hbegin]
    have hentered : beginState (a.join b) =
        { beginState a with lastBatchOrdinal := b.batchOrdinal } := by
      rw [beginState, beginState, h.contact]
      rfl
    simp [hbegin, hjoined, hentered, and_assoc]
  · have hphase : b.phase ≠ .Begin := by
      rcases h.second with hsecond | hsecond <;> simp [hsecond]
    by_cases hopen : state.contactOpen
    · have hfirst := hordinal hupdate hopen
      have hlater : state.lastBatchOrdinal < b.batchOrdinal := hfirst.trans h.ordinal
      simp [hupdate, hphase, hfirst, h.contact, InputBatch.join, hlater, and_assoc]
    · simp [hupdate, hphase, hopen, InputBatch.join]

end Joins

theorem validateSamplesFrom_ordinal {samples : List InputSample} {index : Nat} {loop : SampleLoop}
    (ordinal : UInt64) :
    validateSamplesFrom b C { state with lastBatchOrdinal := ordinal } index samples loop =
      validateSamplesFrom b C state index samples loop := by
  induction samples generalizing index loop with
  | nil => rfl
  | cons s samples ih =>
    rw [validateSamplesFrom, validateSamplesFrom]
    simp only [ih]
    rfl

theorem leaveBatch_ordinal (ordinal : UInt64) (loop : SampleLoop) :
    leaveBatch b { state with lastBatchOrdinal := ordinal } loop = leaveBatch b state loop := by
  unfold leaveBatch
  split_ifs <;> rfl

theorem validateSamples_join (loop : SampleLoop) :
    validateSamples (a.join b) C next (startScan next) = .ok loop ↔
      ∃ first, validateSamples a C next (startScan next) = .ok first ∧
        validateSamplesFrom (a.join b) C next a.samples.length b.samples first = .ok loop := by
  have hsamples : (a.join b).samples = a.samples ++ b.samples := rfl
  have htake : (a.join b).samples.take a.samples.length = a.samples.take a.samples.length := by
    rw [hsamples, List.take_append_of_le_length le_rfl]
  rw [validateSamples, hsamples, validateSamplesFrom_append, bind_eq_ok, Nat.zero_add,
    validateSamplesFrom_congr (by omega) htake]
  rfl

/-- Behind those of the first, the samples of the second batch pass just where they pass from the
state that the first leaves. -/
theorem Joins.validateSecond (h : Joins C a b) {first : SampleLoop}
    (hfirst : validateSamples a C next (startScan next) = .ok first) :
    (∃ loop, validateSamplesFrom (a.join b) C next a.samples.length b.samples first = .ok loop ∧
        leaveBatch (a.join b) next loop = state') ↔
      ∃ loop, validateSamples b C (leaveBatch a next first)
          (startScan (leaveBatch a next first)) = .ok loop ∧
        leaveBatch b (leaveBatch a next first) loop = state' := by
  have hunpredicted : Unpredicted first :=
    (unpredicted_startScan next).validateSamplesFrom h.unpredicted hfirst
  have hstart : startScan (leaveBatch a next first) = { first with lastSequenceInBatch := 0 } := by
    obtain ⟨⟨id, committed, time, count⟩, ids, sequences, last⟩ := first
    obtain ⟨rfl, rfl, rfl, -⟩ := hunpredicted
    rw [leaveBatch, if_neg h.stays]
    rfl
  rw [validateSamples, hstart]
  by_cases hne : b.samples = []
  · simp only [hne, validateSamplesFrom, Except.ok.injEq, exists_eq_left']
    rw [h.leaves first { first with lastSequenceInBatch := 0 } (fun hnot => absurd hne hnot) first]
  · apply exists_congr
    intro loop
    rw [h.leaves loop loop (fun _ => rfl) first]
    apply and_congr_left
    intro _
    exact validateSamplesFrom_first hne h.uncorrected hunpredicted.last

/-- One batch is accepted where two are, and leaves the same state. -/
theorem validateBatch_join (h : Joins C a b)
    (hordinal : a.phase = .Update → state.contactOpen →
      state.lastBatchOrdinal < a.batchOrdinal) :
    validateBatch (a.join b) C state = .ok state' ↔
      ∃ middle, validateBatch a C state = .ok middle ∧ validateBatch b C middle = .ok state' := by
  simp only [validateBatch_eq_ok_iff, h.envelopes, h.enterContact_join hordinal]
  constructor
  · rintro ⟨⟨hfirst, hsecond⟩, entered, ⟨next, henter, rfl⟩, loop, hloop, hleft⟩
    rw [validateSamples, validateSamplesFrom_ordinal] at hloop
    rw [leaveBatch_ordinal] at hleft
    obtain ⟨first, hpassed, hrest⟩ := (validateSamples_join loop).mp hloop
    obtain ⟨last, hlast⟩ := (h.validateSecond hpassed).mp ⟨loop, hrest, hleft⟩
    exact ⟨_, ⟨hfirst, next, henter, first, hpassed, rfl⟩, hsecond, _, h.enters henter first, last,
      hlast⟩
  · rintro ⟨middle, ⟨hfirst, next, henter, first, hpassed, rfl⟩, hsecond, entered, hentered, hlast⟩
    obtain rfl := Except.ok.inj ((h.enters henter first).symm.trans hentered)
    obtain ⟨loop, hrest, hleft⟩ := (h.validateSecond hpassed).mpr hlast
    refine ⟨⟨hfirst, hsecond⟩, _, ⟨next, henter, rfl⟩, loop, ?_, ?_⟩
    · rw [validateSamples, validateSamplesFrom_ordinal]
      exact (validateSamples_join loop).mpr ⟨first, hpassed, hrest⟩
    · rw [leaveBatch_ordinal]
      exact hleft

theorem ordinal_of_validateBatch (h : validateBatch b C state = .ok state')
    (hopen : state'.contactOpen) : state'.lastBatchOrdinal = b.batchOrdinal := by
  obtain ⟨-, next, -, loop, -, rfl⟩ := (validateBatch_eq_ok_iff b C state state').mp h
  rw [leaveBatch] at hopen ⊢
  split_ifs with hclosed
  · rw [if_pos hclosed] at hopen
    cases hopen
  · rfl

end Batch

/-- One stream is another with two neighbouring deliveries joined. -/
inductive JoinedOnce (C : InputSourceCapabilities) : List InputBatch → List InputBatch → Prop where
  | join (before after : List InputBatch) {a b : InputBatch} (h : Joins C a b)
      (hordinal : a.phase = .Update →
        ∀ last ∈ before.getLast?, last.batchOrdinal < a.batchOrdinal) :
      JoinedOnce C (before ++ a :: b :: after) (before ++ a.join b :: after)

section Stream
variable {C : InputSourceCapabilities} {bs bs' : List InputBatch} {state : DeliveryState}

theorem ordinal_of_validateStream (h : validateStream C {} bs = .ok state)
    (hopen : state.contactOpen) :
    ∃ last ∈ bs.getLast?, state.lastBatchOrdinal = last.batchOrdinal := by
  induction bs using List.reverseRecOn with
  | nil =>
    obtain rfl := Except.ok.inj h
    cases hopen
  | append_singleton bs b _ =>
    obtain ⟨middle, -, hlast⟩ := (foldlM_concat_eq_ok _ _ _ bs b).mp h
    exact ⟨b, List.getLast?_concat .., ordinal_of_validateBatch hlast hopen⟩

theorem validateStream_joinedOnce (h : JoinedOnce C bs bs') (state : DeliveryState) :
    validateStream C {} bs = .ok state ↔ validateStream C {} bs' = .ok state := by
  cases h with
  | @join before after a b h hordinal =>
    rw [validateStream, validateStream, foldlM_append_eq_ok, foldlM_append_eq_ok]
    apply exists_congr
    intro middle
    apply and_congr_right
    intro hbefore
    have hfollows : a.phase = .Update → middle.contactOpen →
        middle.lastBatchOrdinal < a.batchOrdinal := by
      intro hupdate hopen
      obtain ⟨last, hlast, hlater⟩ := ordinal_of_validateStream hbefore hopen
      rw [hlater]
      exact hordinal hupdate last hlast
    simp only [List.foldlM_cons, bind_eq_ok, validateBatch_join h hfollows]
    constructor
    · rintro ⟨first, hfirst, second, hsecond, hafter⟩
      exact ⟨second, ⟨first, hfirst, hsecond⟩, hafter⟩
    · rintro ⟨second, ⟨first, hfirst, hsecond⟩, hafter⟩
      exact ⟨first, hfirst, second, hsecond, hafter⟩

/-- However often neighbouring deliveries are joined or cut, the same streams are accepted, and
leave the same state. -/
theorem validateStream_rejoined (h : Relation.EqvGen (JoinedOnce C) bs bs')
    (state : DeliveryState) :
    validateStream C {} bs = .ok state ↔ validateStream C {} bs' = .ok state := by
  induction h with
  | rel bs bs' h => exact validateStream_joinedOnce h state
  | refl => rfl
  | symm bs bs' _ ih => exact ih.symm
  | trans bs bs' bs'' _ _ ih ih' => exact ih.trans ih'

end Stream

/-- A contact of one sample at a time that ends with a prediction. -/
def oneByOne : List InputBatch :=
  [{ contact := ⟨1⟩, batchOrdinal := 1, phase := .Begin, samples := [plainSample .Measured 1 1] },
   { contact := ⟨1⟩, batchOrdinal := 2, phase := .Update, samples := [plainSample .Measured 2 2] },
   { contact := ⟨1⟩, batchOrdinal := 3, phase := .Update, samples := [plainSample .Predicted 3 3] }]

def atOnce : List InputBatch :=
  [{ contact := ⟨1⟩, batchOrdinal := 3, phase := .Begin
     samples :=
      [plainSample .Measured 1 1, plainSample .Measured 2 2, plainSample .Predicted 3 3] }]

theorem validateStream_rejoined_oneByOne :
    (validateStream allCapabilities {} atOnce).isOk ∧
      ∀ state, validateStream allCapabilities {} oneByOne = .ok state ↔
        validateStream allCapabilities {} atOnce = .ok state := by
  refine ⟨by decide +kernel, validateStream_rejoined (.trans _ _ _ (.rel _ _ (.join [] _ ?_ ?_))
    (.rel _ _ (.join [] [] ?_ ?_)))⟩
  · constructor <;> decide
  · decide
  · constructor <;> decide
  · decide

end LightPhi.Input
