import LightPhi.Input.DeliveryHistory

/-! Which sample a rejected batch is blamed on. The sample loop stops at the first sample that
breaks a rule, and nothing behind that sample has a say. -/
namespace LightPhi.Input
open Base

/-- Whether the reason is about one sample, which the error then names. -/
def BatchValidationReason.sampleLevel : BatchValidationReason → Bool
  | .InvalidSample | .IdentityNotIncreasing | .SequenceOutOfOrder | .TimeNotMonotonic
  | .UnknownCorrection | .RepeatedCorrection | .PredictionNotAhead => true
  | .ZeroContact | .UndefinedPhase | .TooManySamples | .MissingSamples | .SamplesOnCancel
  | .ContactAlreadyOpen | .ContactNotOpen | .OrdinalNotIncreasing => false

/-- An error about the sample at this index. -/
structure BatchValidationError.Blames (error : BatchValidationError) (index : Nat) : Prop where
  sampleLevel : error.reason.sampleLevel
  sampleIndex : error.sampleIndex = index

section Sample
variable {b b' : InputBatch} {C : InputSourceCapabilities} {previous : DeliveryState}
  {index : Nat} {s : InputSample} {loop : SampleLoop} {error : BatchValidationError}

theorem validateOrigin_blames (h : validateOrigin b previous index s loop = .error error) :
    error.Blames index := by
  unfold validateOrigin at h
  cases ho : s.origin with
  | Measured | Coalesced =>
    simp only [ho, validateObserved, fail] at h
    split_ifs at h
    rw [← Except.error.inj h]
    exact ⟨rfl, rfl⟩
  | Predicted =>
    simp only [ho, validatePredicted, fail] at h
    split_ifs at h
    rw [← Except.error.inj h]
    exact ⟨rfl, rfl⟩
  | Corrected =>
    simp only [ho, validateCorrected, fail] at h
    split_ifs at h <;> rw [← Except.error.inj h] <;> exact ⟨rfl, rfl⟩
  | Invented e => simp [ho] at h

/-- The checks on one sample blame that sample. -/
theorem validateSample_blames (h : validateSample b C previous index s loop = .error error) :
    error.Blames index := by
  unfold validateSample fail at h
  cases hv : validate s C with
  | error reason =>
    simp only [hv] at h
    rw [← Except.error.inj h]
    exact ⟨rfl, rfl⟩
  | ok u =>
    simp only [hv] at h
    split_ifs at h
    · rw [← Except.error.inj h]
      exact ⟨rfl, rfl⟩
    · rw [← Except.error.inj h]
      exact ⟨rfl, rfl⟩
    · rw [← Except.error.inj h]
      exact ⟨rfl, rfl⟩
    · cases horigin : validateOrigin b previous index s
        { loop with
          scan.sampleId := s.id.value
          scan.timestamp := max loop.scan.timestamp s.timeNanoseconds } with
      | error reason =>
        rw [horigin] at h
        rw [← Except.error.inj h]
        exact validateOrigin_blames horigin
      | ok checked =>
        rw [horigin] at h
        simp [bind, Except.bind] at h

/-- Of the batch around it, a sample sees no more than the samples before it. -/
theorem validateSample_congr (h : b'.samples.take index = b.samples.take index) :
    validateSample b' C previous index s loop = validateSample b C previous index s loop := by
  simp only [validateSample, validateOrigin, validateCorrected, h]

end Sample

section Loop
variable {b b' : InputBatch} {C : InputSourceCapabilities} {previous : DeliveryState}
  {error : BatchValidationError}

theorem validateSamplesFrom_congr {samples : List InputSample} {index : Nat} {loop : SampleLoop}
    {n : Nat} (hn : index + samples.length ≤ n + 1)
    (h : b'.samples.take n = b.samples.take n) :
    validateSamplesFrom b' C previous index samples loop =
      validateSamplesFrom b C previous index samples loop := by
  induction samples generalizing index loop with
  | nil => rfl
  | cons s samples ih =>
    rw [List.length_cons] at hn
    have hindex : b'.samples.take index = b.samples.take index := by
      have htake := congrArg (List.take index) h
      rwa [List.take_take, List.take_take, Nat.min_eq_left (by omega)] at htake
    simp only [validateSamplesFrom, validateSample_congr hindex]
    congr 1
    funext middle
    exact ih (by omega)

theorem validateSamplesFrom_append (xs ys : List InputSample) (index : Nat) (loop : SampleLoop) :
    validateSamplesFrom b C previous index (xs ++ ys) loop =
      validateSamplesFrom b C previous index xs loop >>=
        validateSamplesFrom b C previous (index + xs.length) ys := by
  induction xs generalizing index loop with
  | nil => rfl
  | cons s xs ih =>
    simp only [List.cons_append, validateSamplesFrom, ih, bind_assoc, List.length_cons]
    congr 1
    funext middle
    rw [Nat.add_assoc, Nat.add_comm 1]

/-- The loop ends in an error at one sample: those before it passed, those behind it were not
looked at. -/
theorem validateSamplesFrom_error {samples : List InputSample} {index : Nat} {loop : SampleLoop}
    (h : validateSamplesFrom b C previous index samples loop = .error error) :
    ∃ passed s rest middle, samples = passed ++ s :: rest ∧
      validateSamplesFrom b C previous index passed loop = .ok middle ∧
      validateSample b C previous (index + passed.length) s middle = .error error := by
  induction samples generalizing index loop with
  | nil => simp [validateSamplesFrom] at h
  | cons s samples ih =>
    cases hs : validateSample b C previous index s loop with
    | error reason =>
      simp only [validateSamplesFrom, hs] at h
      have heq : reason = error := Except.error.inj h
      exact ⟨[], s, samples, loop, rfl, rfl, by rw [← heq]; exact hs⟩
    | ok middle =>
      simp only [validateSamplesFrom, hs] at h
      obtain ⟨passed, t, rest, last, rfl, hpassed, ht⟩ := ih h
      refine ⟨s :: passed, t, rest, last, rfl, ?_, ?_⟩
      · rw [validateSamplesFrom, hs]
        exact hpassed
      · rw [List.length_cons, ← Nat.add_assoc, Nat.add_right_comm]
        exact ht

end Loop

section Batch
variable {b b' : InputBatch} {C : InputSourceCapabilities} {state : DeliveryState}
  {error : BatchValidationError}

theorem validateEnvelope_blames_none (h : validateEnvelope b C = .error error) :
    error.reason.sampleLevel = false := by
  unfold validateEnvelope fail at h
  split_ifs at h <;> rw [← Except.error.inj h] <;> rfl

theorem enterContact_blames_none (h : enterContact b state = .error error) :
    error.reason.sampleLevel = false := by
  unfold enterContact fail at h
  split_ifs at h <;> rw [← Except.error.inj h] <;> rfl

/-- A batch blamed on a sample passed all checks on the batch, and then some of its samples. -/
theorem validateBatch_error (h : validateBatch b C state = .error error)
    (hsample : error.reason.sampleLevel) :
    EnvelopeRule C b ∧ ∃ entered passed s rest middle, enterContact b state = .ok entered ∧
      b.samples = passed ++ s :: rest ∧ error.sampleIndex = passed.length ∧
      validateSamplesFrom b C entered 0 passed (startScan entered) = .ok middle ∧
      validateSample b C entered passed.length s middle = .error error := by
  cases henv : validateEnvelope b C with
  | error reason =>
    rw [validateBatch, henv] at h
    have heq : reason = error := Except.error.inj h
    rw [← heq, validateEnvelope_blames_none henv] at hsample
    exact absurd hsample Bool.false_ne_true
  | ok u =>
    cases henter : enterContact b state with
    | error reason =>
      rw [validateBatch, henv, henter] at h
      have heq : reason = error := Except.error.inj h
      rw [← heq, enterContact_blames_none henter] at hsample
      exact absurd hsample Bool.false_ne_true
    | ok entered =>
      cases hloop : validateSamples b C entered (startScan entered) with
      | ok loop =>
        rw [validateBatch, henv, henter] at h
        simp [bind, Except.bind, hloop] at h
      | error reason =>
        rw [validateBatch, henv, henter] at h
        simp only [bind, Except.bind, hloop] at h
        have heq : reason = error := Except.error.inj h
        rw [heq] at hloop
        obtain ⟨passed, s, rest, middle, hsplit, hpassed, hs⟩ := validateSamplesFrom_error hloop
        rw [Nat.zero_add] at hs
        exact ⟨(validateEnvelope_eq_ok b C).mp henv, entered, passed, s, rest, middle, rfl, hsplit,
          (validateSample_blames hs).sampleIndex, hpassed, hs⟩

/-- Two batches that open alike enter the contact alike. -/
theorem enterContact_congr (hcontact : b'.contact = b.contact)
    (hordinal : b'.batchOrdinal = b.batchOrdinal) (hphase : b'.phase = b.phase) :
    enterContact b' state = enterContact b state := by
  simp only [enterContact, beginState, hcontact, hordinal, hphase]

/-- A batch that shares the samples up to the offender runs into the same error. -/
theorem validateBatch_error_congr (h : validateBatch b C state = .error error)
    (hsample : error.reason.sampleLevel) (hcontact : b'.contact = b.contact)
    (hordinal : b'.batchOrdinal = b.batchOrdinal) (hphase : b'.phase = b.phase)
    (hshared : b'.samples.take (error.sampleIndex + 1) = b.samples.take (error.sampleIndex + 1))
    (hbound : b'.samples.length ≤ min C.maximumBatchSamples.toNat maximumBatchSamples) :
    validateBatch b' C state = .error error := by
  obtain ⟨henv, entered, passed, s, rest, middle, henter, hsplit, hindex, hpassed, hs⟩ :=
    validateBatch_error h hsample
  have htake : b.samples.take (passed.length + 1) = passed ++ [s] := by
    rw [hsplit, List.take_append, List.take_of_length_le (Nat.le_succ _)]
    simp
  rw [hindex, htake] at hshared
  have hsplit' : b'.samples = passed ++ s :: b'.samples.drop (passed.length + 1) := by
    rw [List.append_cons passed s, ← hshared, List.take_append_drop]
  have hbefore : b'.samples.take passed.length = b.samples.take passed.length := by
    rw [hsplit', hsplit]
    simp
  have henv' : validateEnvelope b' C = .ok () := by
    refine (validateEnvelope_eq_ok b' C).mpr ⟨by rw [hcontact]; exact henv.contact,
      by rw [hphase]; exact henv.phase, hbound, fun _ => by rw [hsplit']; simp, fun hcancel => ?_⟩
    have hnil := henv.cancel (hphase ▸ hcancel)
    simp [hsplit] at hnil
  have hloop : validateSamples b' C entered (startScan entered) = .error error := by
    rw [validateSamples, hsplit', validateSamplesFrom_append,
      validateSamplesFrom_congr (by omega) hbefore, hpassed, Nat.zero_add]
    simp only [bind, Except.bind, validateSamplesFrom, validateSample_congr hbefore, hs]
  rw [validateBatch, henv', enterContact_congr hcontact hordinal hphase, henter]
  simp only [bind, Except.bind, hloop]

/-- The samples before the offender make a batch that passes, unless there are none. -/
theorem validateBatch_error_cut (h : validateBatch b C state = .error error)
    (hsample : error.reason.sampleLevel) (hpos : 0 < error.sampleIndex) :
    ∃ next, validateBatch { b with samples := b.samples.take error.sampleIndex } C state =
      .ok next := by
  obtain ⟨henv, entered, passed, s, rest, middle, henter, hsplit, hindex, hpassed, -⟩ :=
    validateBatch_error h hsample
  have htake : b.samples.take error.sampleIndex = passed := by
    rw [hindex, hsplit]
    simp
  have hne : passed ≠ [] := by
    rw [hindex] at hpos
    exact List.length_pos_iff.mp hpos
  have hlength := congrArg List.length hsplit
  have hbound := henv.bound
  simp only [List.length_append, List.length_cons] at hlength
  rw [htake]
  refine ⟨_, (validateBatch_eq_ok_iff _ _ _ _).mpr
    ⟨⟨henv.contact, henv.phase, ?_, fun _ => hne, fun hcancel => ?_⟩, entered, henter, middle, ?_,
      rfl⟩⟩
  · have hshort : passed.length ≤ b.samples.length := by omega
    exact hshort.trans hbound
  · have hnil := henv.cancel hcancel
    simp [hsplit] at hnil
  · rw [← hpassed]
    refine validateSamplesFrom_congr (n := passed.length) (by simp) ?_
    rw [hsplit]
    simp

end Batch

/-- A batch rejected for one of its samples is rejected for the first that offends: whatever
follows that sample, the error is the same, and what comes before it passes alone. -/
theorem blames_first_offender {b : InputBatch} {C : InputSourceCapabilities}
    {state : DeliveryState} {error : BatchValidationError}
    (h : validateBatch b C state = .error error) (hsample : error.reason.sampleLevel) :
    error.sampleIndex < b.samples.length ∧
      (∀ b' : InputBatch, b'.contact = b.contact → b'.batchOrdinal = b.batchOrdinal →
        b'.phase = b.phase →
        b'.samples.take (error.sampleIndex + 1) = b.samples.take (error.sampleIndex + 1) →
        b'.samples.length ≤ min C.maximumBatchSamples.toNat maximumBatchSamples →
        validateBatch b' C state = .error error) ∧
      (0 < error.sampleIndex →
        ∃ next, validateBatch { b with samples := b.samples.take error.sampleIndex } C state =
          .ok next) := by
  refine ⟨?_, ?_, validateBatch_error_cut h hsample⟩
  · obtain ⟨-, entered, passed, s, rest, middle, -, hsplit, hindex, -⟩ :=
      validateBatch_error h hsample
    rw [hindex, hsplit]
    simp
  · intro b' hcontact hordinal hphase hshared hbound
    exact validateBatch_error_congr h hsample hcontact hordinal hphase hshared hbound

/-- A second sample with the identity of the first. -/
def repeatedIdentity : InputBatch :=
  { contact := ⟨1⟩, batchOrdinal := 1,
    samples := [{ id := ⟨1⟩, sequence := 1 }, { id := ⟨1⟩, sequence := 2 }] }

theorem blames_first_offender_second :
    1 < repeatedIdentity.samples.length ∧
      (∀ b' : InputBatch, b'.contact = ⟨1⟩ → b'.batchOrdinal = 1 → b'.phase = .Begin →
        b'.samples.take 2 = repeatedIdentity.samples.take 2 →
        b'.samples.length ≤ min 9 maximumBatchSamples →
        validateBatch b' { maximumBatchSamples := 9 } {} =
          .error { reason := .IdentityNotIncreasing, sampleIndex := 1 }) ∧
      (0 < 1 → ∃ next, validateBatch { repeatedIdentity with
          samples := repeatedIdentity.samples.take 1 } { maximumBatchSamples := 9 } {} =
        .ok next) :=
  @blames_first_offender repeatedIdentity { maximumBatchSamples := 9 } {}
    { reason := .IdentityNotIncreasing, sampleIndex := 1 } (by decide +kernel) rfl

end LightPhi.Input
