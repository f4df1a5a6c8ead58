import LightPhi.Input.DeliveryHistory

/-! When the committed sequences of a contact increase, and when a prediction that may still be
corrected lies ahead of them. The batch check alone promises neither. -/
namespace LightPhi.Input
open Base

/-- The sequences of the measured, coalesced and corrected samples increase in delivery order. -/
def CommittedIncreasing (g : List InputBatch) : Prop :=
  ((committedOf (samplesOf g)).map (·.sequence)).Pairwise (· < ·)

instance (g : List InputBatch) : Decidable (CommittedIncreasing g) :=
  inferInstanceAs (Decidable (List.Pairwise _ _))

/-- No committed sample follows a prediction. -/
def PredictionsLast (samples : List InputSample) : Prop :=
  samples.Pairwise fun q t => q.origin = .Predicted → t.origin.committed = false

/-- No correction follows an observed sample of the same sequence. -/
def CorrectionsFirst (samples : List InputSample) : Prop :=
  samples.Pairwise fun t s => t.origin.observed → s.origin = .Corrected → t.sequence ≠ s.sequence

/-- No sample corrects a prediction that a committed sample followed in its own batch. -/
def CorrectsLastPredictions (prior samples : List InputSample) : Prop :=
  ∀ s ∈ samples, s.origin = .Corrected → ∀ before q after, prior = before ++ q :: after →
    q.origin = .Predicted → q.id = s.corrects → ∀ t ∈ after, t.origin.committed = false

/-- Where a contact's corrections sit, so that none of them goes back. -/
structure CorrectionsInPlace (g : List InputBatch) : Prop where
  inBatch : ∀ b ∈ g, CorrectionsFirst b.samples
  across : Always (fun earlier b => CorrectsLastPredictions (lastSamples earlier) b.samples) g

theorem pairwise_cases {α : Type*} {r : α → α → Prop} {xs : List α} (h : xs.Pairwise r) {a b : α}
    (ha : a ∈ xs) (hb : b ∈ xs) : a = b ∨ r a b ∨ r b a := by
  obtain ⟨i, hi, rfl⟩ := List.getElem_of_mem ha
  obtain ⟨j, hj, rfl⟩ := List.getElem_of_mem hb
  rw [List.pairwise_iff_getElem] at h
  rcases Nat.lt_trichotomy i j with hij | rfl | hij
  · exact Or.inr (Or.inl (h i j hi hj hij))
  · exact Or.inl rfl
  · exact Or.inr (Or.inr (h j i hj hi hij))

theorem committedIncreasing_iff (g : List InputBatch) :
    CommittedIncreasing g ↔ (samplesOf g).Pairwise fun t s =>
      t.origin.committed → s.origin.committed → t.sequence < s.sequence := by
  rw [CommittedIncreasing, List.pairwise_map, committedOf, List.pairwise_filter]

theorem committed_cases {origin : SampleOrigin} (h : origin.committed) :
    origin.observed ∨ origin = .Corrected := by
  cases origin <;> simp_all [SampleOrigin.committed, SampleOrigin.observed]

section Batch
variable {C : InputSourceCapabilities} {before prior xs : List InputSample}

/-- Two corrections in one batch replace different predictions, so their sequences differ. -/
theorem corrections_ne (hprior : prior.Pairwise MayPrecedeInBatch)
    {t s : InputSample} (ht : NamesPrediction prior t) (hs : NamesPrediction prior s)
    (hto : t.origin = .Corrected) (hso : s.origin = .Corrected) (hne : t.corrects ≠ s.corrects) :
    t.sequence ≠ s.sequence := by
  obtain ⟨q, hq, hqo, hqid, hqseq⟩ := ht hto
  obtain ⟨p, hp, hpo, hpid, hpseq⟩ := hs hso
  rw [← hqseq, ← hpseq]
  rcases pairwise_cases hprior hq hp with rfl | h | h
  · exact absurd (hqid.symm.trans hpid) hne
  · exact (h.prediction hqo hpo).ne
  · exact (h.prediction hpo hqo).ne'

/-- Inside one batch the committed sequences increase exactly when no correction follows an
observed sample of its sequence. -/
theorem batch_increasing_iff (hprior : prior.Pairwise MayPrecedeInBatch)
    (horder : xs.Pairwise (MayPrecede C)) (hbatch : xs.Pairwise MayPrecedeInBatch)
    (hnames : ∀ s ∈ xs, NamesPrediction prior s) :
    (xs.Pairwise fun t s => t.origin.committed → s.origin.committed → t.sequence < s.sequence) ↔
      CorrectionsFirst xs := by
  constructor
  · intro h
    refine h.imp fun {t s} hlt hto hso => ?_
    exact (hlt (committed_of_observed hto) (by simp [hso, SampleOrigin.committed])).ne
  · intro h
    refine (List.Pairwise.and (List.Pairwise.and h horder) hbatch).imp_of_mem ?_
    rintro t s ht hs ⟨⟨hfirst, hmay⟩, hin⟩ htc hsc
    cases committed_cases hsc with
    | inl hso => exact hmay.sequence htc fun he => by simp [he, SampleOrigin.observed] at hso
    | inr hso =>
      refine lt_of_le_of_ne hin.sequence ?_
      cases committed_cases htc with
      | inl hto => exact hfirst hto hso
      | inr hto =>
        exact corrections_ne hprior (hnames t ht) (hnames s hs) hto hso (hin.correction hto hso)

end Batch
section Contact
variable {C : InputSourceCapabilities} {g : List InputBatch}

/-- One identity names one sample of a contact. -/
theorem eq_of_id_eq {xs : List InputSample} (h : xs.Pairwise (MayPrecede C)) {p q : InputSample}
    (hp : p ∈ xs) (hq : q ∈ xs) (hid : p.id = q.id) : p = q := by
  rcases pairwise_cases h hp hq with heq | hlt | hlt
  · exact heq
  · exact absurd hlt.identity (by simp [hid])
  · exact absurd hlt.identity (by simp [hid])

/-- Between a batch and the batches before it, the committed sequences increase exactly when the
batch corrects no prediction that a committed sample followed. -/
theorem across_increasing_iff {b : InputBatch} (h : ContactContents C (g ++ [b])) :
    (∀ t ∈ samplesOf g, ∀ s ∈ b.samples, t.origin.committed → s.origin.committed →
      t.sequence < s.sequence) ↔ CorrectsLastPredictions (lastSamples g) b.samples := by
  have horder := h.order
  rw [samplesOf_concat, List.pairwise_append] at horder
  have hnames := ((always_concat g b).mp h.corrections).2
  rcases List.eq_nil_or_concat' g with rfl | ⟨init, p, rfl⟩
  · simp [CorrectsLastPredictions]
  rw [lastSamples_concat] at hnames ⊢
  have hp : p.samples.Pairwise MayPrecedeInBatch := h.batchOrder p (by simp)
  have hmem : ∀ t ∈ p.samples, t ∈ samplesOf (init ++ [p]) := by
    intro t ht
    simp [ht]
  constructor
  · intro hlt s hs hso before q after hsplit hqo hqid t ht
    obtain ⟨q', hq', hqo', hqid', hqseq⟩ := hnames s hs hso
    have hq : q ∈ p.samples := by simp [hsplit]
    have htp : t ∈ p.samples := by simp [hsplit, ht]
    obtain rfl := eq_of_id_eq horder.1 (hmem q hq) (hmem q' hq') (hqid.trans hqid'.symm)
    rw [hsplit, List.pairwise_append, List.pairwise_cons] at hp
    have hle := (hp.2.1.1 t ht).sequence
    by_contra htc
    have := hlt t (hmem t htp) s hs (by simpa using htc) (by simp [hso, SampleOrigin.committed])
    exact absurd this (by simpa [← hqseq] using hle)
  · intro hlast t ht s hs htc hsc
    rcases committed_cases hsc with hso | hso
    · exact (horder.2.2 t ht s hs).sequence htc fun he => by simp [he, SampleOrigin.observed] at hso
    obtain ⟨q, hq, hqo, hqid, hqseq⟩ := hnames s hs hso
    obtain ⟨before, after, hsplit⟩ := List.append_of_mem hq
    have hfollow := hlast s hs hso before q after hsplit hqo hqid
    have hq_ne : q.origin ≠ .Corrected := by simp [hqo]
    rw [← hqseq]
    have hinit := horder.1
    rw [samplesOf_concat, hsplit, List.pairwise_append, List.pairwise_append] at hinit
    rw [samplesOf_concat, hsplit, List.mem_append, List.mem_append, List.mem_cons] at ht
    rcases ht with ht | ht | rfl | ht
    · exact (hinit.2.2 t ht q (by simp)).sequence htc hq_ne
    · exact (hinit.2.1.2.2 t ht q (by simp)).sequence htc hq_ne
    · simp [hqo, SampleOrigin.committed] at htc
    · simp [hfollow t ht] at htc

/-- In a contact that obeys the rules, the committed sequences increase exactly when every
correction is in place. -/
theorem contact_increasing_iff (h : ContactContents C g) :
    CommittedIncreasing g ↔ CorrectionsInPlace g := by
  rw [committedIncreasing_iff]
  induction g using List.reverseRecOn with
  | nil => exact ⟨fun _ => ⟨by simp, always_nil⟩, fun _ => List.Pairwise.nil⟩
  | append_singleton g b ih =>
    obtain ⟨hg, -, -, -, hrule⟩ := (contactContents_concat C g b).mp h
    obtain ⟨-, -, horder, hbatch, hnames⟩ := (following_sampleRule_iff _ _ _ _).mp hrule
    have hprior : (lastSamples g).Pairwise MayPrecedeInBatch := by
      cases List.eq_nil_or_concat' g with
      | inl hnil =>
        subst hnil
        simp
      | inr hconcat =>
        obtain ⟨init, p, rfl⟩ := hconcat
        simpa using hg.batchOrder p (by simp)
    rw [samplesOf_concat, List.pairwise_append, ih hg, across_increasing_iff h,
      batch_increasing_iff hprior horder.1 hbatch hnames]
    constructor
    · intro h
      obtain ⟨hin, hfirst, hacross⟩ := h
      exact ⟨by simpa [or_imp, forall_and] using ⟨hin.inBatch, hfirst⟩,
        (always_concat g b).mpr ⟨hin.across, hacross⟩⟩
    · intro hin
      have hacross := (always_concat g b).mp hin.across
      exact ⟨⟨fun a ha => hin.inBatch a (by simp [ha]), hacross.1⟩, hin.inBatch b (by simp),
        hacross.2⟩

end Contact

/-- On an accepted history, the committed sequences of every contact increase if and only if no
correction follows an observed sample of its sequence in its own batch, and none replaces a
prediction that a committed sample followed in the batch before. -/
theorem committed_increasing_iff_in_place (C : InputSourceCapabilities) (bs : List InputBatch)
    (st : DeliveryState) (h : validateStream C {} bs = .ok st) :
    (∀ g ∈ contactsOf bs, CommittedIncreasing g) ↔ ∀ g ∈ contactsOf bs, CorrectionsInPlace g := by
  have hrules := ((validateStream_eq_ok C bs st).mp h).1
  exact forall₂_congr fun g hg => contact_increasing_iff (hrules g hg).toContactContents

/-- A measured or predicted sample at one position, with nothing populated. -/
def plainSample (origin : SampleOrigin) (id sequence : UInt64) : InputSample :=
  { id := ⟨id⟩, sequence := sequence, origin := origin }

def correctedSample (id corrects sequence : UInt64) : InputSample :=
  { id := ⟨id⟩, corrects := ⟨corrects⟩, sequence := sequence, origin := .Corrected }

def allCapabilities : InputSourceCapabilities :=
  { available := allInputCapabilities, maximumBatchSamples := 256 }

/-- A contact that predicts, and corrects the prediction before it measures again. -/
def correctedFirst : List InputBatch :=
  [{ contact := ⟨1⟩, batchOrdinal := 1, phase := .Begin,
     samples := [plainSample .Measured 1 1, plainSample .Predicted 2 2] },
   { contact := ⟨1⟩, batchOrdinal := 2, phase := .Update,
     samples := [correctedSample 3 2 2, plainSample .Measured 4 3] }]

/-- The same contact, but the measurement comes before the correction and takes its position. -/
def correctedAfterMeasured : List InputBatch :=
  [{ contact := ⟨1⟩, batchOrdinal := 1, phase := .Begin,
     samples := [plainSample .Measured 1 1, plainSample .Predicted 2 2] },
   { contact := ⟨1⟩, batchOrdinal := 2, phase := .Update,
     samples := [plainSample .Measured 3 2, correctedSample 4 2 2] }]

/-- A measurement follows the prediction in its batch, and the correction goes back behind it. -/
def correctedBehindMeasured : List InputBatch :=
  [{ contact := ⟨1⟩, batchOrdinal := 1, phase := .Begin,
     samples := [plainSample .Measured 1 1, plainSample .Predicted 2 5,
       plainSample .Measured 3 7] },
   { contact := ⟨1⟩, batchOrdinal := 2, phase := .Update,
     samples := [correctedSample 4 2 5] }]

theorem correctedFirst_in_place :
    ∃ st, validateStream allCapabilities {} correctedFirst = .ok st ∧
      ((∀ g ∈ contactsOf correctedFirst, CommittedIncreasing g) ↔
        ∀ g ∈ contactsOf correctedFirst, CorrectionsInPlace g) := by
  obtain ⟨st, h⟩ := exists_of_isOk (x := validateStream allCapabilities {} correctedFirst)
    (by decide +kernel)
  exact ⟨st, h, committed_increasing_iff_in_place _ _ st h⟩

/-- Accepted histories whose committed sequences repeat (1, 2, 2) and go back (1, 7, 5). -/
theorem committed_not_increasing :
    (validateStream allCapabilities {} correctedAfterMeasured).isOk ∧
      (∃ g ∈ contactsOf correctedAfterMeasured, ¬ CommittedIncreasing g) ∧
      (validateStream allCapabilities {} correctedBehindMeasured).isOk ∧
      (∃ g ∈ contactsOf correctedBehindMeasured, ¬ CommittedIncreasing g) := by
  decide +kernel

/-- A prediction that may still be corrected lies ahead of every committed sample. -/
def PredictionsAhead (st : DeliveryState) : Prop :=
  ∀ i < st.previousPredictionCount,
    st.lastCommittedSequence < st.previousPredictionSequences[i]?.getD 0

instance (st : DeliveryState) : Decidable (PredictionsAhead st) :=
  inferInstanceAs (Decidable (∀ i < st.previousPredictionCount, _))

theorem predictionsAhead_openState {g : List InputBatch} {last : InputBatch}
    (hlen : last.samples.length ≤ maximumBatchSamples) :
    PredictionsAhead (openState g last) ↔
      ∀ q ∈ predictionsOf last.samples, highestCommitted (samplesOf g) < q.sequence := by
  have hle : (predictionsOf last.samples).length ≤ maximumBatchSamples :=
    (List.length_filter_le _ _).trans hlen
  have hcell : ∀ i, (hi : i < (predictionsOf last.samples).length) →
      (padded maximumBatchSamples ((predictionsOf last.samples).map (·.sequence)))[i]?.getD 0 =
        (predictionsOf last.samples)[i].sequence := by
    intro i hi
    rw [padded_getElem? (by simpa using hi) (by simpa using hle)]
    simp
  simp only [PredictionsAhead, openState]
  constructor
  · intro h q hq
    obtain ⟨i, hi, rfl⟩ := List.getElem_of_mem hq
    have := h i hi
    rwa [hcell i hi] at this
  · intro h i hi
    rw [hcell i hi]
    exact h _ (List.getElem_mem hi)

/-- The predictions of the last batch are ahead exactly when no committed sample follows them. -/
theorem last_predictions_ahead_iff {C : InputSourceCapabilities} {g : List InputBatch}
    {b : InputBatch} (h : ContactContents C (g ++ [b])) :
    (∀ q ∈ predictionsOf b.samples, highestCommitted (samplesOf (g ++ [b])) < q.sequence) ↔
      PredictionsLast b.samples := by
  have horder := h.order
  rw [samplesOf_concat, List.pairwise_append] at horder
  have hbatch := h.batchOrder b (by simp)
  simp only [mem_predictionsOf, highestCommitted_lt_iff]
  constructor
  · intro hahead
    refine hbatch.imp_of_mem fun {q t} hq ht hin hqo => ?_
    by_contra htc
    have hlt := (hahead q ⟨hq, hqo⟩).2 t (by simp [ht]) (by simpa using htc)
    exact absurd hlt (not_lt.mpr hin.sequence)
  · intro hlast q hall
    obtain ⟨hq, hqo⟩ := hall
    have hq_ne : q.origin ≠ .Corrected := by simp [hqo]
    refine ⟨h.positive q (by simp [hq]) hq_ne, fun t ht htc => ?_⟩
    rw [samplesOf_concat, List.mem_append] at ht
    cases ht with
    | inl ht => exact (horder.2.2 t ht q hq).sequence htc hq_ne
    | inr ht =>
      rcases pairwise_cases (horder.2.1.and hlast) ht hq with rfl | hr | hr
      · simp [hqo, SampleOrigin.committed] at htc
      · exact hr.1.sequence htc hq_ne
      · simp [hr.2 hqo] at htc

/-- In every state an accepted history reaches, the predictions that may be corrected lie ahead of
the committed input if and only if the last batch closed the contact or no committed sample of it
follows a prediction. -/
theorem predictions_ahead_iff_last (C : InputSourceCapabilities) (bs : List InputBatch)
    (st : DeliveryState) (h : validateStream C {} bs = .ok st) :
    PredictionsAhead st ↔
      ∀ b ∈ bs.getLast?, b.phase.closes = false → PredictionsLast b.samples := by
  obtain ⟨hrules, rfl⟩ := (validateStream_eq_ok C bs st).mp h
  cases List.eq_nil_or_concat' bs with
  | inl hnil =>
    subst hnil
    simp [historyOf, PredictionsAhead]
  | inr hconcat =>
    obtain ⟨init, b, rfl⟩ := hconcat
    rw [historyOf_current_concat, currentAfter]
    split_ifs with hb
    · simp [PredictionsAhead, hb]
    · obtain ⟨hinit, hrule⟩ := (deliveryRules_concat C init b).mp hrules
      have hcontact := (contactRules_concat C _ b (current_open init)).mpr
        ⟨((deliveryRules_iff C init).mp hinit).2, hrule⟩
      rw [stateOf_concat, predictionsAhead_openState hrule.envelope.length_le,
        last_predictions_ahead_iff hcontact.toContactContents]
      simp [hb]

theorem correctedFirst_predictions :
    ∃ st, validateStream allCapabilities {} correctedFirst = .ok st ∧
      (PredictionsAhead st ↔
        ∀ b ∈ correctedFirst.getLast?, b.phase.closes = false → PredictionsLast b.samples) := by
  obtain ⟨st, h⟩ := exists_of_isOk (x := validateStream allCapabilities {} correctedFirst)
    (by decide +kernel)
  exact ⟨st, h, predictions_ahead_iff_last _ _ st h⟩

/-- The Begin alone leaves the committed sequence 7 with the prediction 5 still correctable. -/
theorem prediction_behind_committed :
    ∃ st, validateStream allCapabilities {} (correctedBehindMeasured.take 1) = .ok st ∧
      ¬ PredictionsAhead st := by
  obtain ⟨st, h⟩ := exists_of_isOk
    (x := validateStream allCapabilities {} (correctedBehindMeasured.take 1)) (by decide +kernel)
  refine ⟨st, h, ?_⟩
  rw [((validateStream_eq_ok _ _ st).mp h).2]
  decide +kernel

end LightPhi.Input
