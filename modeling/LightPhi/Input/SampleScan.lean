import LightPhi.Input.DeliveryRules

/-! What the sample loop of the batch check computes: its running totals are the maxima over the
whole contact, and a sample passes exactly when it may follow everything before it. -/
namespace LightPhi.Input
open Base

def predictionsOf (samples : List InputSample) : List InputSample :=
  samples.filter (·.origin == .Predicted)

def committedOf (samples : List InputSample) : List InputSample :=
  samples.filter (·.origin.committed)

def highestId (xs : List InputSample) : UInt64 := runningMax 0 (xs.map (·.id.value))

def highestCommitted (xs : List InputSample) : UInt64 :=
  runningMax 0 ((committedOf xs).map (·.sequence))

def latestTime (xs : List InputSample) : UInt64 := runningMax 0 (xs.map (·.timeNanoseconds))

/-- The locals of the loop once the samples `done` of a batch have passed, in a contact that
carried the samples `before` in earlier batches. -/
def loopAfter (before done : List InputSample) : SampleLoop where
  scan :=
    { sampleId := highestId (before ++ done)
      committedSequence := highestCommitted (before ++ done)
      timestamp := latestTime (before ++ done)
      predictionCount := (predictionsOf done).length }
  predictionIds := padded _ ((predictionsOf done).map (·.id))
  predictionSequences := padded _ ((predictionsOf done).map (·.sequence))
  lastSequenceInBatch := (done.map (·.sequence)).getLastD 0

/-- A state remembers exactly the predictions among the given samples. -/
structure Remembers (state : DeliveryState) (prior : List InputSample) : Prop where
  bound : (predictionsOf prior).length ≤ maximumBatchSamples
  count : state.previousPredictionCount = (predictionsOf prior).length
  ids : state.previousPredictionIds = padded _ ((predictionsOf prior).map (·.id))
  sequences : state.previousPredictionSequences = padded _ ((predictionsOf prior).map (·.sequence))

/-- The rule of one sample, behind the contact's earlier samples `before`, the batch before it
`prior` and the samples `done` of its own batch. -/
structure SampleRule (C : InputSourceCapabilities) (before prior done : List InputSample)
    (s : InputSample) : Prop where
  contract : SampleContract C s
  positive : s.origin ≠ .Corrected → s.sequence ≠ 0
  order : ∀ t ∈ before ++ done, MayPrecede C t s
  batchOrder : ∀ t ∈ done, MayPrecedeInBatch t s
  correction : NamesPrediction prior s

@[simp] theorem predictionsOf_concat (xs : List InputSample) (s : InputSample) :
    predictionsOf (xs ++ [s]) = predictionsOf xs ++ if s.origin = .Predicted then [s] else [] := by
  by_cases h : s.origin = .Predicted <;> simp [predictionsOf, List.filter_append, h]

@[simp] theorem highestId_concat (xs : List InputSample) (s : InputSample) :
    highestId (xs ++ [s]) = max (highestId xs) s.id.value := by
  simp [highestId]

@[simp] theorem latestTime_concat (xs : List InputSample) (s : InputSample) :
    latestTime (xs ++ [s]) = max (latestTime xs) s.timeNanoseconds := by
  simp [latestTime]

theorem highestCommitted_concat (xs : List InputSample) (s : InputSample) :
    highestCommitted (xs ++ [s]) =
      if s.origin.committed then max (highestCommitted xs) s.sequence else highestCommitted xs := by
  by_cases h : s.origin.committed <;> simp [highestCommitted, committedOf, List.filter_append, h]

theorem mem_predictionsOf {xs : List InputSample} {q : InputSample} :
    q ∈ predictionsOf xs ↔ q ∈ xs ∧ q.origin = .Predicted := by
  simp [predictionsOf]

theorem mem_committedOf {xs : List InputSample} {t : InputSample} :
    t ∈ committedOf xs ↔ t ∈ xs ∧ t.origin.committed := by
  simp [committedOf]

theorem matchesPreviousPrediction_iff {state : DeliveryState} {prior : List InputSample}
    (h : Remembers state prior) (s : InputSample) :
    matchesPreviousPrediction state s ↔
      ∃ q ∈ prior, q.origin = .Predicted ∧ q.id = s.corrects ∧ q.sequence = s.sequence := by
  have hb := h.bound
  simp only [matchesPreviousPrediction, h.count, h.ids, h.sequences, List.any_eq_true,
    List.mem_range, Bool.and_eq_true, beq_iff_eq]
  constructor
  · intro h
    obtain ⟨i, hi, hid, hseq⟩ := h
    rw [padded_getElem? (by simpa using hi) (by simpa using hb)] at hid hseq
    simp only [List.getElem_map, Option.some.injEq] at hid hseq
    have hmem := mem_predictionsOf.mp (List.getElem_mem hi)
    exact ⟨_, hmem.1, hmem.2, hid, hseq⟩
  · intro h
    obtain ⟨q, hq, horigin, hid, hseq⟩ := h
    obtain ⟨i, hi, rfl⟩ := List.getElem_of_mem (mem_predictionsOf.mpr ⟨hq, horigin⟩)
    refine ⟨i, hi, ?_, ?_⟩
    · rw [padded_getElem? (by simpa using hi) (by simpa using hb)]
      simpa using hid
    · rw [padded_getElem? (by simpa using hi) (by simpa using hb)]
      simpa using hseq

section Origins
variable (batch : InputBatch) (previous : DeliveryState) (s : InputSample)
variable (index : Nat) (loop next : SampleLoop)

theorem validateObserved_eq_ok :
    validateObserved s index loop = .ok next ↔
      loop.scan.committedSequence < s.sequence ∧
        next = { loop with scan.committedSequence := s.sequence } := by
  unfold validateObserved fail
  split_ifs with h
  · simp [not_lt.mpr h]
  · simp [not_le.mp h, eq_comm]

theorem validateCorrected_eq_ok {prior : List InputSample} (h : Remembers previous prior) :
    validateCorrected previous batch index s loop = .ok next ↔
      (∃ q ∈ prior, q.origin = .Predicted ∧ q.id = s.corrects ∧ q.sequence = s.sequence) ∧
      (∀ t ∈ batch.samples.take index, t.origin = .Corrected → t.corrects ≠ s.corrects) ∧
      next = { loop with
        scan.committedSequence := max loop.scan.committedSequence s.sequence } := by
  rw [← matchesPreviousPrediction_iff h]
  unfold validateCorrected fail
  split_ifs with hmatch hrepeat
  · simp_all
  · simp only [List.any_eq_true, Bool.and_eq_true, beq_iff_eq] at hrepeat
    obtain ⟨t, ht, horigin, hcorrects⟩ := hrepeat
    simp only [false_iff]
    exact fun hall => hall.2.1 t ht horigin hcorrects
  · have hrule : ∀ t ∈ batch.samples.take index, t.origin = .Corrected →
        t.corrects ≠ s.corrects := by
      intro t ht horigin hcorrects
      apply hrepeat
      simp only [List.any_eq_true, Bool.and_eq_true, beq_iff_eq]
      exact ⟨t, ht, horigin, hcorrects⟩
    have hm : matchesPreviousPrediction previous s = true := by simpa using hmatch
    constructor
    · intro he
      exact ⟨hm, hrule, (Except.ok.inj he).symm⟩
    · intro h
      obtain ⟨-, -, rfl⟩ := h
      rfl

theorem validatePredicted_eq_ok :
    validatePredicted s index loop = .ok next ↔
      loop.scan.committedSequence < s.sequence ∧
      (0 < loop.scan.predictionCount →
        loop.predictionSequences[loop.scan.predictionCount - 1]?.getD 0 < s.sequence) ∧
      next = { loop with
        predictionIds := loop.predictionIds.setIfInBounds loop.scan.predictionCount s.id
        predictionSequences :=
          loop.predictionSequences.setIfInBounds loop.scan.predictionCount s.sequence
        scan.predictionCount := loop.scan.predictionCount + 1 } := by
  unfold validatePredicted fail
  dsimp only
  split_ifs with h
  · simp only [false_iff]
    intro hall
    obtain ⟨hcommitted, hcount, -⟩ := hall
    cases h with
    | inl h => exact absurd hcommitted (not_lt.mpr h)
    | inr h =>
      obtain ⟨hpos, h⟩ := h
      exact absurd (hcount hpos) (not_lt.mpr h)
  · obtain ⟨hcommitted, hcount⟩ := not_or.mp h
    constructor
    · intro he
      refine ⟨not_le.mp hcommitted, ?_, (Except.ok.inj he).symm⟩
      intro hpos
      exact not_le.mp fun hle => hcount ⟨hpos, hle⟩
    · intro h
      obtain ⟨-, -, rfl⟩ := h
      rfl

end Origins

section Steps
variable {batch : InputBatch} {previous : DeliveryState} {s : InputSample}
  {index : Nat} {loop next : SampleLoop}

/-- All that the checks on an origin change: they commit a sequence, or keep one more prediction. -/
theorem validateOrigin_cases (h : validateOrigin batch previous index s loop = .ok next) :
    (∃ sequence, next = { loop with scan.committedSequence := sequence }) ∨
      next = { loop with
        predictionIds := loop.predictionIds.setIfInBounds loop.scan.predictionCount s.id
        predictionSequences :=
          loop.predictionSequences.setIfInBounds loop.scan.predictionCount s.sequence
        scan.predictionCount := loop.scan.predictionCount + 1 } := by
  unfold validateOrigin at h
  cases ho : s.origin with
  | Measured | Coalesced =>
    simp only [ho, validateObserved_eq_ok] at h
    exact Or.inl ⟨_, h.2⟩
  | Predicted =>
    simp only [ho, validatePredicted_eq_ok] at h
    exact Or.inr h.2.2
  | Corrected =>
    simp only [ho, validateCorrected, fail] at h
    split_ifs at h
    exact Or.inl ⟨_, (Except.ok.inj h).symm⟩
  | Invented e =>
    simp only [ho] at h
    exact Or.inl ⟨_, (Except.ok.inj h).symm⟩

/-- One sample more, and at most one prediction more. -/
theorem validateSample_predictionCount_le {C : InputSourceCapabilities}
    (h : validateSample batch C previous index s loop = .ok next) :
    next.scan.predictionCount ≤ loop.scan.predictionCount + 1 := by
  unfold validateSample fail at h
  cases hv : validate s C with
  | error error => simp [hv] at h
  | ok u =>
    simp only [hv] at h
    split_ifs at h
    obtain ⟨checked, horigin, hnext⟩ := (bind_eq_ok _ _ _).mp h
    rw [← Except.ok.inj hnext]
    cases validateOrigin_cases horigin with
    | inl hcommits =>
      obtain ⟨_, rfl⟩ := hcommits
      exact Nat.le_succ _
    | inr hkeeps =>
      subst hkeeps
      exact le_rfl

end Steps

/-- The last prediction written bounds all of them. -/
theorem lastPrediction_lt_iff {done : List InputSample} (hlen : done.length ≤ maximumBatchSamples)
    (hd : done.Pairwise MayPrecedeInBatch) (y : UInt64) :
    (0 < (predictionsOf done).length →
      ((padded maximumBatchSamples ((predictionsOf done).map (·.sequence)))[
        (predictionsOf done).length - 1]?).getD 0 < y) ↔
      ∀ t ∈ done, t.origin = .Predicted → t.sequence < y := by
  have hle : (predictionsOf done).length ≤ done.length := List.length_filter_le _ _
  have hsorted : ((predictionsOf done).map (·.sequence)).Pairwise (· ≤ ·) := by
    rw [List.pairwise_map]
    exact (hd.sublist (List.filter_sublist)).imp fun h => h.sequence
  have hlast := forall_iff_last hsorted 0 (· < y) fun a b hab hb => lt_of_le_of_lt hab hb
  simp only [List.forall_mem_map, mem_predictionsOf, and_imp] at hlast
  rw [← hlast]
  cases List.eq_nil_or_concat' (predictionsOf done) with
  | inl hnil => simp [hnil]
  | inr hconcat =>
    obtain ⟨ps, p, hps⟩ := hconcat
    have hlt : ps.length < ((predictionsOf done).map (·.sequence)).length := by simp [hps]
    have hcell := padded_getElem? hlt (n := maximumBatchSamples) (by simp; omega)
    simp only [hps, List.length_append, List.length_singleton, Nat.add_sub_cancel] at hcell ⊢
    rw [hcell]
    simp

theorem highestId_lt_iff (xs : List InputSample) {y : UInt64} (hy : y ≠ 0) :
    highestId xs < y ↔ ∀ t ∈ xs, t.id.value < y := by
  simp [highestId, runningMax_lt_iff, Word.pos_iff_ne_zero, hy]

theorem latestTime_le_iff (xs : List InputSample) (y : UInt64) :
    latestTime xs ≤ y ↔ ∀ t ∈ xs, t.timeNanoseconds ≤ y := by
  simp [latestTime, runningMax_le_iff]

theorem highestCommitted_lt_iff (xs : List InputSample) (y : UInt64) :
    highestCommitted xs < y ↔ y ≠ 0 ∧ ∀ t ∈ xs, t.origin.committed → t.sequence < y := by
  rw [highestCommitted, runningMax_lt_iff, Word.pos_iff_ne_zero, List.forall_mem_map]
  simp only [mem_committedOf, and_imp]

/-- What the origin of a sample adds to the checks on its identity, order and time. -/
structure OriginRule (before prior done : List InputSample) (s : InputSample) : Prop where
  positive : s.origin ≠ .Corrected → s.sequence ≠ 0
  committed : ∀ t ∈ before ++ done, t.origin.committed → s.origin ≠ .Corrected →
    t.sequence < s.sequence
  prediction : ∀ t ∈ done, t.origin = .Predicted → s.origin = .Predicted → t.sequence < s.sequence
  repeated : ∀ t ∈ done, t.origin = .Corrected → s.origin = .Corrected → t.corrects ≠ s.corrects
  correction : NamesPrediction prior s

/- The loop with identity and time of a sample already taken over. -/
def entering (loop : SampleLoop) (id time : UInt64) : SampleLoop :=
  { loop with scan.sampleId := id, scan.timestamp := time }

theorem validateOrigin_eq_ok {batch : InputBatch} {previous : DeliveryState} {s : InputSample}
    {prior done : List InputSample} (before : List InputSample) (id time : UInt64)
    (next : SampleLoop)
    (hprior : Remembers previous prior) (htake : batch.samples.take done.length = done)
    (hlen : done.length ≤ maximumBatchSamples) (hd : done.Pairwise MayPrecedeInBatch)
    (hdefined : s.origin ∈ [SampleOrigin.Measured, .Coalesced, .Predicted, .Corrected]) :
    validateOrigin batch previous done.length s (entering (loopAfter before done) id time) =
        .ok next ↔
      OriginRule before prior done s ∧
        next = { entering (loopAfter before (done ++ [s])) id time with
          lastSequenceInBatch := (loopAfter before done).lastSequenceInBatch } := by
  have hcommitted := highestCommitted_lt_iff (before ++ done) s.sequence
  have hnext := highestCommitted_concat (before ++ done) s
  rw [List.append_assoc] at hnext
  cases ho : s.origin with
  | Measured | Coalesced =>
    simp only [validateOrigin, ho, validateObserved_eq_ok]
    simp only [entering, loopAfter, hcommitted, predictionsOf_concat, ho]
    constructor
    · intro h
      obtain ⟨hlt, rfl⟩ := h
      have hmax := max_eq_right (hcommitted.mpr hlt).le
      refine ⟨⟨fun _ => hlt.1, fun t ht hc _ => hlt.2 t ht hc, by simp [ho], by simp [ho],
        by simp [NamesPrediction, ho]⟩, ?_⟩
      simp [hnext, ho, SampleOrigin.committed, hmax]
    · intro h
      obtain ⟨hrule, rfl⟩ := h
      have hlt := And.intro (hrule.positive (by simp [ho]))
        fun t ht hc => hrule.committed t ht hc (by simp [ho])
      refine ⟨hlt, ?_⟩
      simp [hnext, ho, SampleOrigin.committed, max_eq_right (hcommitted.mpr hlt).le]
  | Predicted =>
    have hlast := lastPrediction_lt_iff hlen hd s.sequence
    simp only [validateOrigin, ho, validatePredicted_eq_ok]
    simp only [entering, loopAfter, hcommitted, hlast, predictionsOf_concat, ho]
    have hids := padded_map_concat (n := maximumBatchSamples) (·.id) (predictionsOf done) s
    have hseqs := padded_map_concat (n := maximumBatchSamples) (·.sequence) (predictionsOf done) s
    constructor
    · intro h
      obtain ⟨hlt, hpred, rfl⟩ := h
      refine ⟨⟨fun _ => hlt.1, fun t ht hc _ => hlt.2 t ht hc, fun t ht hp _ => hpred t ht hp,
        by simp [ho], by simp [NamesPrediction, ho]⟩, ?_⟩
      rw [hids, hseqs]
      simp [hnext, ho, SampleOrigin.committed]
    · intro h
      obtain ⟨hrule, rfl⟩ := h
      refine ⟨⟨hrule.positive (by simp [ho]),
          fun t ht hc => hrule.committed t ht hc (by simp [ho])⟩,
        fun t ht hp => hrule.prediction t ht hp ho, ?_⟩
      rw [hids, hseqs]
      simp [hnext, ho, SampleOrigin.committed]
  | Corrected =>
    simp only [validateOrigin, ho, validateCorrected_eq_ok _ _ _ _ _ _ hprior, htake]
    simp only [entering, loopAfter, predictionsOf_concat, ho]
    constructor
    · intro h
      obtain ⟨hnames, hrepeat, rfl⟩ := h
      refine ⟨⟨by simp [ho], by simp [ho], by simp [ho], fun t ht hc _ => hrepeat t ht hc,
        fun _ => hnames⟩, ?_⟩
      simp [hnext, ho, SampleOrigin.committed]
    · intro h
      obtain ⟨hrule, rfl⟩ := h
      refine ⟨hrule.correction ho, fun t ht hc => hrule.repeated t ht hc ho, ?_⟩
      simp [hnext, ho, SampleOrigin.committed]
  | Invented e => simp [ho] at hdefined

theorem lastSequence_le_iff {done : List InputSample} (hd : done.Pairwise MayPrecedeInBatch)
    (y : UInt64) :
    ¬ (0 < done.length ∧ y < (done.map (·.sequence)).getLastD 0) ↔
      ∀ t ∈ done, t.sequence ≤ y := by
  have hsorted : (done.map (·.sequence)).Pairwise (· ≤ ·) := by
    rw [List.pairwise_map]
    exact hd.imp fun h => h.sequence
  have hlast := forall_iff_last hsorted 0 (· ≤ y) fun a b hab hb => hab.trans hb
  rw [List.forall_mem_map] at hlast
  rw [← hlast, not_and, not_lt, List.length_pos_iff, ne_eq, ne_eq, List.map_eq_nil_iff]

/- The totals a turn takes over from its sample are those of the longer list. -/
theorem entering_concat {before done : List InputSample} {s : InputSample}
    (hid : highestId (before ++ done) < s.id.value) :
    { entering (loopAfter before (done ++ [s])) s.id.value
        (max (loopAfter before done).scan.timestamp s.timeNanoseconds) with
      lastSequenceInBatch := s.sequence } = loopAfter before (done ++ [s]) := by
  have hmax := highestId_concat (before ++ done) s
  have htime := latestTime_concat (before ++ done) s
  rw [max_eq_right hid.le, List.append_assoc] at hmax
  rw [List.append_assoc] at htime
  simp [entering, loopAfter, hmax, htime]

/-- One turn of the loop accepts exactly a sample that may follow, and moves the totals on. -/
theorem validateSample_eq_ok {batch : InputBatch} {previous : DeliveryState}
    {prior done : List InputSample} (before : List InputSample) (s : InputSample)
    (C : InputSourceCapabilities) (next : SampleLoop)
    (hprior : Remembers previous prior) (htake : batch.samples.take done.length = done)
    (hlen : done.length ≤ maximumBatchSamples) (hd : done.Pairwise MayPrecedeInBatch) :
    validateSample batch C previous done.length s (loopAfter before done) = .ok next ↔
      SampleRule C before prior done s ∧ next = loopAfter before (done ++ [s]) := by
  have hcontract := validate_eq_ok s C
  unfold validateSample fail
  cases hv : validate s C with
  | error e =>
    simp only [reduceCtorEq, false_iff]
    intro hall
    obtain ⟨h, -⟩ := hall
    simpa [hv] using hcontract.mpr h.contract
  | ok u =>
    have hs := hcontract.mp hv
    have hid := highestId_lt_iff (before ++ done) hs.identity
    have htime := latestTime_le_iff (before ++ done) s.timeNanoseconds
    have hseq := lastSequence_le_iff hd s.sequence
    dsimp only
    split_ifs with h1 h2 h3
    · simp only [false_iff]
      intro hall
      obtain ⟨h, -⟩ := hall
      exact not_lt.mpr h1 (hid.mpr fun t ht => (h.order t ht).identity)
    · simp only [false_iff]
      intro hall
      obtain ⟨h, -⟩ := hall
      exact hseq.mpr (fun t ht => (h.batchOrder t ht).sequence) h2
    · simp only [false_iff]
      intro hall
      obtain ⟨h, -⟩ := hall
      exact not_lt.mpr (htime.mpr fun t ht => (h.order t ht).time h3.1) h3.2
    · have hid' := hid.mp (not_le.mp h1)
      have hseq' := hseq.mp h2
      have htime' : supports C .Timestamp → ∀ t ∈ before ++ done,
          t.timeNanoseconds ≤ s.timeNanoseconds := by
        intro hC
        exact htime.mp (not_lt.mp fun hlt => h3 ⟨hC, hlt⟩)
      have horigin := fun checked => validateOrigin_eq_ok before s.id.value
        (max (loopAfter before done).scan.timestamp s.timeNanoseconds) checked hprior htake hlen hd
        hs.origin
      simp only [entering] at horigin
      simp only [bind_eq_ok, horigin, Except.ok.injEq]
      constructor
      · intro hall
        obtain ⟨checked, ⟨hrule, rfl⟩, hnext⟩ := hall
        refine ⟨⟨hs, hrule.positive, ?_, ?_, hrule.correction⟩, ?_⟩
        · intro t ht
          exact ⟨hid' t ht, fun hC => htime' hC t ht, hrule.committed t ht⟩
        · intro t ht
          exact ⟨hseq' t ht, hrule.prediction t ht, hrule.repeated t ht⟩
        · exact hnext.symm.trans (entering_concat (not_le.mp h1))
      · intro hall
        obtain ⟨h, rfl⟩ := hall
        refine ⟨_, ⟨⟨h.positive, fun t ht => (h.order t ht).sequence,
          fun t ht => (h.batchOrder t ht).prediction, fun t ht => (h.batchOrder t ht).correction,
          h.correction⟩, rfl⟩, ?_⟩
        exact entering_concat (not_le.mp h1)

/-- The whole loop accepts exactly the samples that each may follow those before. -/
theorem validateSamplesFrom_eq_ok {batch : InputBatch} {previous : DeliveryState}
    {before prior : List InputSample} (C : InputSourceCapabilities) (next : SampleLoop)
    (hprior : Remembers previous prior) (hlen : batch.samples.length ≤ maximumBatchSamples)
    (rest done : List InputSample) (hsplit : batch.samples = done ++ rest)
    (hd : done.Pairwise MayPrecedeInBatch) :
    validateSamplesFrom batch C previous done.length rest (loopAfter before done) = .ok next ↔
      Following (SampleRule C before prior) done rest ∧ next = loopAfter before batch.samples := by
  induction rest generalizing done with
  | nil =>
    simp only [List.append_nil] at hsplit
    simp [validateSamplesFrom, Following, hsplit, eq_comm]
  | cons s rest ih =>
    have htake : batch.samples.take done.length = done := by simp [hsplit]
    have hdone : done.length ≤ maximumBatchSamples := by
      have := congrArg List.length hsplit
      simp at this
      omega
    have hstep := fun loop => validateSample_eq_ok before s C loop hprior htake
      hdone hd
    simp only [validateSamplesFrom, bind_eq_ok, hstep, Following]
    constructor
    · intro hall
      obtain ⟨loop, ⟨hrule, rfl⟩, hrest⟩ := hall
      have hd' : (done ++ [s]).Pairwise MayPrecedeInBatch := by
        simpa [List.pairwise_append] using ⟨hd, hrule.batchOrder⟩
      have h := ih (done ++ [s]) (by simp [hsplit]) hd'
      rw [List.length_append, List.length_singleton] at h
      exact ⟨⟨hrule, (h.mp hrest).1⟩, (h.mp hrest).2⟩
    · intro hall
      obtain ⟨⟨hrule, hrest⟩, hnext⟩ := hall
      have hd' : (done ++ [s]).Pairwise MayPrecedeInBatch := by
        simpa [List.pairwise_append] using ⟨hd, hrule.batchOrder⟩
      have h := ih (done ++ [s]) (by simp [hsplit]) hd'
      rw [List.length_append, List.length_singleton] at h
      exact ⟨_, ⟨hrule, rfl⟩, h.mpr ⟨hrest, hnext⟩⟩

end LightPhi.Input
