import LightPhi.Input.SampleScan

/-! The state the batch check carries loses nothing: it is a function of the contact that is
open, and a batch passes from it exactly when the whole contact still obeys the rules. -/
namespace LightPhi.Input
open Base

/-- The state an unfinished contact leaves, given as its batches; `last` is the latest. -/
def openState (current : List InputBatch) (last : InputBatch) : DeliveryState where
  contactOpen := true
  contact := last.contact
  lastBatchOrdinal := last.batchOrdinal
  lastSampleId := highestId (samplesOf current)
  lastCommittedSequence := highestCommitted (samplesOf current)
  lastTimestamp := latestTime (samplesOf current)
  previousPredictionCount := (predictionsOf last.samples).length
  previousPredictionIds := padded _ ((predictionsOf last.samples).map (·.id))
  previousPredictionSequences := padded _ ((predictionsOf last.samples).map (·.sequence))

def stateOf (current : List InputBatch) : DeliveryState :=
  match current.getLast? with
  | none => {}
  | some last => openState current last

@[simp] theorem stateOf_nil : stateOf [] = {} := rfl

@[simp] theorem stateOf_concat (g : List InputBatch) (b : InputBatch) :
    stateOf (g ++ [b]) = openState (g ++ [b]) b := by
  simp [stateOf]

/-- What a batch must satisfy to extend the contact `g`, or to begin one when `g` is empty. -/
structure BatchRule (C : InputSourceCapabilities) (g : List InputBatch) (b : InputBatch) :
    Prop where
  envelope : EnvelopeRule C b
  phase : b.phase = .Begin ↔ g = []
  contact : ∀ a ∈ g.getLast?, a.contact = b.contact
  ordinal : ∀ a ∈ g.getLast?, a.batchOrdinal < b.batchOrdinal
  samples : Following (SampleRule C (samplesOf g) (lastSamples g)) [] b.samples

/-- Where a batch leaves the contact it extends. -/
def currentAfter (g : List InputBatch) (b : InputBatch) : List InputBatch :=
  if b.phase.closes then [] else g ++ [b]

theorem validateBatch_eq_ok_iff (b : InputBatch) (C : InputSourceCapabilities)
    (st st' : DeliveryState) :
    validateBatch b C st = .ok st' ↔
      EnvelopeRule C b ∧ ∃ next, enterContact b st = .ok next ∧
        ∃ loop, validateSamples b C next (startScan next) = .ok loop ∧
          leaveBatch b next loop = st' := by
  rw [validateBatch, check_bind_eq_ok, validateEnvelope_eq_ok]
  simp only [bind_eq_ok, Except.ok.injEq]

/-- A Begin starts from nothing behind a closed contact, anything else goes on with its own. -/
theorem enterContact_eq_ok_iff (b : InputBatch) (st next : DeliveryState) :
    enterContact b st = .ok next ↔
      (b.phase = .Begin ∧ st.contactOpen = false ∧ beginState b = next) ∨
      (b.phase ≠ .Begin ∧ st.contactOpen ∧ st.contact = b.contact ∧
        st.lastBatchOrdinal < b.batchOrdinal ∧ st = next) := by
  unfold enterContact fail
  split_ifs with hbegin hopen hother hordinal
  · simp [hbegin, hopen]
  · simp [hbegin, hopen]
  · cases hother with
    | inl hclosed =>
      have hclosed : st.contactOpen = false := by simpa using hclosed
      simp [hbegin, hclosed]
    | inr hcontact => simp [hbegin, hcontact]
  · simp [hbegin, not_lt.mpr hordinal]
  · obtain ⟨hopen, hcontact⟩ := not_or.mp hother
    have hopen : st.contactOpen = true := by simpa using hopen
    simp [hbegin, hopen, not_not.mp hcontact, not_le.mp hordinal]

theorem validateSamples_eq_ok {b : InputBatch} {next : DeliveryState}
    {before prior : List InputSample} (C : InputSourceCapabilities) (loop : SampleLoop)
    (hstart : startScan next = loopAfter before []) (hprior : Remembers next prior)
    (hlen : b.samples.length ≤ maximumBatchSamples) :
    validateSamples b C next (startScan next) = .ok loop ↔
      Following (SampleRule C before prior) [] b.samples ∧ loop = loopAfter before b.samples := by
  rw [validateSamples, hstart]
  exact validateSamplesFrom_eq_ok C loop hprior hlen b.samples [] rfl List.Pairwise.nil

theorem EnvelopeRule.length_le {C : InputSourceCapabilities} {b : InputBatch}
    (h : EnvelopeRule C b) : b.samples.length ≤ maximumBatchSamples := by
  have := h.bound
  omega

/-- Begin, on a closed state. -/
theorem validateBatch_begin (C : InputSourceCapabilities) (b : InputBatch) (st : DeliveryState)
    (hb : b.phase = .Begin) :
    validateBatch b C {} = .ok st ↔ BatchRule C [] b ∧ st = stateOf (currentAfter [] b) := by
  have hstart : startScan (beginState b) = loopAfter [] [] := by
    simp [startScan, beginState, loopAfter, highestId, highestCommitted, latestTime, committedOf,
      predictionsOf]
  have hprior : Remembers (beginState b) [] := by
    constructor <;> simp [predictionsOf, beginState]
  have hleave : leaveBatch b (beginState b) (loopAfter [] b.samples) =
      stateOf (currentAfter [] b) := by
    simp [leaveBatch, hb, currentAfter, ContactPhase.closes, stateOf, openState, loopAfter,
      samplesOf, beginState]
  simp only [validateBatch_eq_ok_iff, enterContact_eq_ok_iff, hb, ne_eq, not_true_eq_false,
    true_and, false_and, or_false, exists_eq_left']
  constructor
  · intro h
    obtain ⟨henv, loop, hloop, rfl⟩ := h
    obtain ⟨hsamples, rfl⟩ := (validateSamples_eq_ok C loop hstart hprior henv.length_le).mp hloop
    exact ⟨⟨henv, by simp [hb], by simp, by simp, by simpa using hsamples⟩, hleave⟩
  · intro h
    obtain ⟨hrule, rfl⟩ := h
    exact ⟨hrule.envelope, _, (validateSamples_eq_ok C _ hstart hprior
      hrule.envelope.length_le).mpr ⟨by simpa using hrule.samples, rfl⟩, hleave⟩

/-- Update, End and Cancel, on the state of an unfinished contact. -/
theorem validateBatch_open (C : InputSourceCapabilities) (g : List InputBatch) (last b : InputBatch)
    (st : DeliveryState) (hb : b.phase ≠ .Begin)
    (hlen : last.samples.length ≤ maximumBatchSamples) :
    validateBatch b C (openState (g ++ [last]) last) = .ok st ↔
      BatchRule C (g ++ [last]) b ∧ st = stateOf (currentAfter (g ++ [last]) b) := by
  have hstart : startScan (openState (g ++ [last]) last) =
      loopAfter (samplesOf (g ++ [last])) [] := by
    simp [startScan, openState, loopAfter, predictionsOf]
  have hprior : Remembers (openState (g ++ [last]) last) last.samples :=
    ⟨(List.length_filter_le _ _).trans hlen, rfl, rfl, rfl⟩
  have henter : ∀ next, enterContact b (openState (g ++ [last]) last) = .ok next ↔
      last.contact = b.contact ∧ last.batchOrdinal < b.batchOrdinal ∧
        openState (g ++ [last]) last = next := by
    intro next
    simp [enterContact_eq_ok_iff, hb, openState]
  have hleave (hcontact : last.contact = b.contact) :
      leaveBatch b (openState (g ++ [last]) last)
        (loopAfter (samplesOf (g ++ [last])) b.samples) =
      stateOf (currentAfter (g ++ [last]) b) := by
    by_cases hc : b.phase.closes
    · have hp := (closes_iff b.phase).mp hc
      simp [leaveBatch, hp, currentAfter, hc]
    · have hp : ¬ (b.phase = .End ∨ b.phase = .Cancel) := fun h => hc ((closes_iff _).mpr h)
      rw [leaveBatch, if_neg hp, currentAfter, if_neg hc, stateOf_concat]
      simp [openState, loopAfter, hcontact, -List.append_assoc]
  simp only [validateBatch_eq_ok_iff, henter]
  constructor
  · intro h
    obtain ⟨henv, _, ⟨hcontact, hordinal, rfl⟩, loop, hloop, rfl⟩ := h
    obtain ⟨hsamples, rfl⟩ := (validateSamples_eq_ok C loop hstart hprior henv.length_le).mp hloop
    exact ⟨⟨henv, by simp [hb], by simpa using hcontact, by simpa using hordinal,
      by simpa using hsamples⟩, hleave hcontact⟩
  · intro h
    obtain ⟨hrule, rfl⟩ := h
    have hcontact : last.contact = b.contact := by simpa using hrule.contact
    exact ⟨hrule.envelope, _, ⟨hcontact, by simpa using hrule.ordinal, rfl⟩, _,
      (validateSamples_eq_ok C _ hstart hprior hrule.envelope.length_le).mpr
        ⟨by simpa using hrule.samples, rfl⟩, hleave hcontact⟩

/-- One batch, from the state of any unfinished or absent contact. -/
theorem validateBatch_stateOf (C : InputSourceCapabilities) (g : List InputBatch) (b : InputBatch)
    (st : DeliveryState) (hg : ∀ a ∈ g, a.samples.length ≤ maximumBatchSamples) :
    validateBatch b C (stateOf g) = .ok st ↔ BatchRule C g b ∧ st = stateOf (currentAfter g b) := by
  cases List.eq_nil_or_concat' g with
  | inl hnil =>
    subst hnil
    by_cases hb : b.phase = .Begin
    · exact validateBatch_begin C b st hb
    · simp only [stateOf_nil, validateBatch_eq_ok_iff, enterContact_eq_ok_iff]
      constructor
      · intro h
        obtain ⟨-, next, hnext, -⟩ := h
        simp [hb] at hnext
      · intro h
        obtain ⟨hrule, -⟩ := h
        exact absurd (hrule.phase.mpr rfl) hb
  | inr hconcat =>
    obtain ⟨earlier, last, rfl⟩ := hconcat
    by_cases hb : b.phase = .Begin
    · rw [stateOf_concat]
      simp only [validateBatch_eq_ok_iff, enterContact_eq_ok_iff]
      constructor
      · intro h
        obtain ⟨-, next, hnext, -⟩ := h
        simp [hb, openState] at hnext
      · intro h
        obtain ⟨hrule, -⟩ := h
        exact absurd (hrule.phase.mp hb) (by simp)
    · rw [stateOf_concat]
      exact validateBatch_open C earlier last b st hb (hg last (by simp))

theorem openPhases_concat (phases : List ContactPhase) (phase : ContactPhase) :
    OpenPhases (phases ++ [phase]) ↔
      (phases = [] ∧ phase = .Begin) ∨ (OpenPhases phases ∧ phase = .Update) := by
  constructor
  · intro hall
    obtain ⟨n, h⟩ := hall
    cases n with
    | zero =>
      have hp : phases = [] := by simpa using congrArg List.length h
      subst hp
      exact Or.inl ⟨rfl, by simpa using h⟩
    | succ n =>
      rw [List.replicate_succ', ← List.cons_append] at h
      obtain ⟨hp, hphase⟩ := List.append_inj' h rfl
      exact Or.inr ⟨⟨n, hp⟩, by simpa using hphase⟩
  · rintro (⟨rfl, rfl⟩ | ⟨⟨n, rfl⟩, rfl⟩)
    · exact ⟨0, rfl⟩
    · exact ⟨n + 1, by rw [List.replicate_succ']; simp⟩

theorem contactPhases_iff {phases : List ContactPhase} (h : ∀ p ∈ phases, p.closes = false) :
    ContactPhases phases ↔ OpenPhases phases := by
  constructor
  · rintro (ho | ⟨earlier, last, rfl, -, hlast⟩)
    · exact ho
    · simp [h last (by simp)] at hlast
  · exact Or.inl

theorem contactPhases_concat {phases : List ContactPhase} (phase : ContactPhase)
    (h : ∀ p ∈ phases, p.closes = false) :
    ContactPhases (phases ++ [phase]) ↔
      (phases = [] ∧ phase = .Begin) ∨
        (ContactPhases phases ∧ (phase = .Update ∨ phase.closes)) := by
  rw [contactPhases_iff h, ContactPhases, openPhases_concat]
  constructor
  · rintro ((hb | ⟨ho, hu⟩) | ⟨earlier, last, heq, ho, hc⟩)
    · exact Or.inl hb
    · exact Or.inr ⟨ho, Or.inl hu⟩
    · obtain ⟨rfl, hlast⟩ := List.append_inj' heq rfl
      obtain rfl := (List.cons.inj hlast).1
      exact Or.inr ⟨ho, Or.inr hc⟩
  · rintro (hb | ⟨ho, hu | hc⟩)
    · exact Or.inl (Or.inl hb)
    · exact Or.inl (Or.inr ⟨ho, hu⟩)
    · exact Or.inr ⟨phases, phase, rfl, ho, hc⟩

/-- The rule of a batch's samples, sample by sample, is the pairwise rule of the whole contact. -/
theorem following_sampleRule_iff (C : InputSourceCapabilities)
    (before prior xs : List InputSample) :
    Following (SampleRule C before prior) [] xs ↔
      (∀ s ∈ xs, SampleContract C s) ∧ (∀ s ∈ xs, s.origin ≠ .Corrected → s.sequence ≠ 0) ∧
      (xs.Pairwise (MayPrecede C) ∧ ∀ t ∈ before, ∀ s ∈ xs, MayPrecede C t s) ∧
      xs.Pairwise MayPrecedeInBatch ∧ ∀ s ∈ xs, NamesPrediction prior s := by
  have hsplit : ∀ done s, SampleRule C before prior done s ↔
      SampleContract C s ∧ (s.origin ≠ .Corrected → s.sequence ≠ 0) ∧
      (∀ t ∈ before ++ done, MayPrecede C t s) ∧ (∀ t ∈ done, MayPrecedeInBatch t s) ∧
      NamesPrediction prior s :=
    fun done s => ⟨fun h => ⟨h.contract, h.positive, h.order, h.batchOrder, h.correction⟩,
      fun ⟨h1, h2, h3, h4, h5⟩ => ⟨h1, h2, h3, h4, h5⟩⟩
  rw [following_congr hsplit, following_and, following_and, following_and, following_and,
    following_forall, following_forall, following_forall, following_pairwise,
    following_shift (fun d s => ∀ t ∈ d, MayPrecede C t s), following_pairwise]
  simp

theorem pairwise_concat_of_last {α β : Type*} (r : β → β → Prop) (f : α → β)
    (htrans : ∀ a b c, r a b → r b c → r a c) (g : List α) (b : α)
    (hg : g.Pairwise fun x y => r (f x) (f y)) :
    (g ++ [b]).Pairwise (fun x y => r (f x) (f y)) ↔ ∀ a ∈ g.getLast?, r (f a) (f b) := by
  cases List.eq_nil_or_concat' g with
  | inl hnil =>
    subst hnil
    simp
  | inr hconcat =>
    obtain ⟨earlier, last, rfl⟩ := hconcat
    have hlast := (List.pairwise_append.mp hg).2.2
    rw [List.pairwise_append]
    simp only [hg, List.pairwise_singleton, List.mem_singleton, forall_eq, true_and,
      List.getLast?_append, List.getLast?_singleton, Option.some_or, Option.mem_some]
    constructor
    · intro h a heq
      subst heq
      exact h last (by simp)
    · intro h a ha
      cases List.mem_append.mp ha with
      | inl ha => exact htrans _ _ _ (hlast a ha last (by simp)) (h last rfl)
      | inr ha => exact h a (List.mem_singleton.mp ha).symm

theorem contactContents_nil (C : InputSourceCapabilities) : ContactContents C [] := by
  constructor <;> simp

theorem contactContents_concat (C : InputSourceCapabilities) (g : List InputBatch)
    (b : InputBatch) :
    ContactContents C (g ++ [b]) ↔ ContactContents C g ∧ EnvelopeRule C b ∧
      (∀ a ∈ g.getLast?, a.contact = b.contact) ∧
      (∀ a ∈ g.getLast?, a.batchOrdinal < b.batchOrdinal) ∧
      Following (SampleRule C (samplesOf g) (lastSamples g)) [] b.samples := by
  rw [following_sampleRule_iff]
  constructor
  · intro h
    have hcontact := List.pairwise_append.mp h.contact
    have hordinals := List.pairwise_append.mp h.ordinals
    have hcorrections := (always_concat g b).mp h.corrections
    have horder := h.order
    have hsamples := h.samples
    have hpositive := h.positive
    simp only [samplesOf_concat, List.mem_append, List.pairwise_append] at *
    exact ⟨⟨fun a ha => h.envelope a (by simp [ha]), hcontact.1, hordinals.1,
        fun s hs => hsamples s (Or.inl hs), fun s hs => hpositive s (Or.inl hs), horder.1,
        fun a ha => h.batchOrder a (by simp [ha]), hcorrections.1⟩,
      h.envelope b (by simp),
      fun a ha => hcontact.2.2 a (List.mem_of_getLast? ha) b (by simp),
      fun a ha => hordinals.2.2 a (List.mem_of_getLast? ha) b (by simp),
      fun s hs => hsamples s (Or.inr hs), fun s hs => hpositive s (Or.inr hs), horder.2,
      h.batchOrder b (by simp), hcorrections.2⟩
  · intro hall
    obtain ⟨h, henv, hcontact, hordinal, hsamples, hpositive, horder, hbatch, hcorr⟩ := hall
    refine ⟨?_, ?_, ?_, ?_, ?_, ?_, ?_, (always_concat g b).mpr ⟨h.corrections, hcorr⟩⟩
    · simpa [or_imp, forall_and] using ⟨h.envelope, henv⟩
    · exact (pairwise_concat_of_last (· = ·) (·.contact) (fun _ _ _ => Eq.trans) g b
        h.contact).mpr hcontact
    · exact (pairwise_concat_of_last (· < ·) (·.batchOrdinal) (fun _ _ _ => lt_trans) g b
        h.ordinals).mpr hordinal
    · simpa [or_imp, forall_and] using ⟨h.samples, hsamples⟩
    · simpa [or_imp, forall_and] using ⟨h.positive, hpositive⟩
    · rw [samplesOf_concat, List.pairwise_append]
      exact ⟨h.order, horder⟩
    · simpa [or_imp, forall_and] using ⟨h.batchOrder, hbatch⟩

/-- A contact extended by one batch obeys the rules when it did and the batch may extend it. -/
theorem contactRules_concat (C : InputSourceCapabilities) (g : List InputBatch) (b : InputBatch)
    (hopen : ∀ a ∈ g, a.phase.closes = false) :
    ContactRules C (g ++ [b]) ↔ (g = [] ∨ ContactRules C g) ∧ BatchRule C g b := by
  have hphases : ∀ p ∈ g.map (·.phase), p.closes = false := by simpa using hopen
  have hconcat := contactPhases_concat b.phase hphases
  rw [← List.map_singleton (f := fun a : InputBatch => a.phase), ← List.map_append,
    List.map_eq_nil_iff] at hconcat
  constructor
  · intro h
    obtain ⟨hg, henv, hcontact, hordinal, hsamples⟩ :=
      (contactContents_concat C g b).mp h.toContactContents
    cases hconcat.mp h.phases with
    | inl hfirst =>
      obtain ⟨rfl, hb⟩ := hfirst
      exact ⟨Or.inl rfl, henv, by simp [hb], hcontact, hordinal, hsamples⟩
    | inr hnext =>
      obtain ⟨hp, hb⟩ := hnext
      have hne : g ≠ [] := by
        intro heq
        subst heq
        obtain ⟨n, hn⟩ := (contactPhases_iff hphases).mp hp
        simp at hn
      have hbegin : b.phase ≠ .Begin := by
        intro he
        simp [he, ContactPhase.closes] at hb
      exact ⟨Or.inr ⟨hg, hp⟩, henv, by simp [hne, hbegin], hcontact, hordinal, hsamples⟩
  · intro h
    obtain ⟨hg, hb⟩ := h
    have hcontents : ContactContents C g := by
      cases hg with
      | inl heq =>
        subst heq
        exact contactContents_nil C
      | inr hg => exact hg.toContactContents
    refine ⟨(contactContents_concat C g b).mpr
      ⟨hcontents, hb.envelope, hb.contact, hb.ordinal, hb.samples⟩, hconcat.mpr ?_⟩
    cases hg with
    | inl heq =>
      subst heq
      exact Or.inl ⟨rfl, hb.phase.mpr rfl⟩
    | inr hg =>
      by_cases hnil : g = []
      · exact Or.inl ⟨hnil, hb.phase.mpr hnil⟩
      · have hdefined := hb.envelope.phase
        have hbegin : b.phase ≠ .Begin := fun he => hnil (hb.phase.mp he)
        refine Or.inr ⟨hg.phases, ?_⟩
        rw [closes_iff]
        simpa [hbegin] using hdefined

theorem current_open (bs : List InputBatch) :
    ∀ b ∈ (historyOf bs).current, b.phase.closes = false := by
  induction bs using List.reverseRecOn with
  | nil => simp [historyOf]
  | append_singleton bs b ih =>
    rw [historyOf_concat, History.record]
    split_ifs with hb
    · simp
    · simpa [or_imp, forall_and] using ⟨ih, by simpa using hb⟩

theorem historyOf_current_concat (bs : List InputBatch) (b : InputBatch) :
    (historyOf (bs ++ [b])).current = currentAfter (historyOf bs).current b := by
  rw [historyOf_concat, History.record, currentAfter]
  split_ifs <;> rfl

theorem contactsOf_concat (bs : List InputBatch) (b : InputBatch) :
    contactsOf (bs ++ [b]) = (historyOf bs).finished ++ [(historyOf bs).current ++ [b]] := by
  rw [contactsOf, historyOf_concat, History.record]
  split_ifs with hb hc hc
  · simp
  · simp at hc
  · simp at hc
  · simp

theorem deliveryRules_iff (C : InputSourceCapabilities) (bs : List InputBatch) :
    DeliveryRules C bs ↔ (∀ g ∈ (historyOf bs).finished, ContactRules C g) ∧
      ((historyOf bs).current = [] ∨ ContactRules C (historyOf bs).current) := by
  rw [DeliveryRules, contactsOf]
  split_ifs with h
  · simp [h]
  · simp [h, or_imp, forall_and]

/-- A history extended by one batch obeys the rules when it did and the batch may extend the
contact that is open. -/
theorem deliveryRules_concat (C : InputSourceCapabilities) (bs : List InputBatch)
    (b : InputBatch) :
    DeliveryRules C (bs ++ [b]) ↔ DeliveryRules C bs ∧ BatchRule C (historyOf bs).current b := by
  rw [deliveryRules_iff C bs, DeliveryRules, contactsOf_concat]
  simp only [List.mem_append, List.mem_singleton, or_imp, forall_and, forall_eq]
  rw [contactRules_concat C _ b (current_open bs), and_assoc]

theorem DeliveryRules.current_length {C : InputSourceCapabilities} {bs : List InputBatch}
    (h : DeliveryRules C bs) :
    ∀ a ∈ (historyOf bs).current, a.samples.length ≤ maximumBatchSamples := by
  intro a ha
  cases ((deliveryRules_iff C bs).mp h).2 with
  | inl hnil => simp [hnil] at ha
  | inr hcurrent => exact (hcurrent.envelope a ha).length_le

/-- The batch check, folded over a history, accepts exactly the histories that obey the rules,
and the state it ends in is the one the open contact determines. -/
theorem validateStream_eq_ok (C : InputSourceCapabilities) (bs : List InputBatch)
    (st : DeliveryState) :
    validateStream C {} bs = .ok st ↔
      DeliveryRules C bs ∧ st = stateOf (historyOf bs).current := by
  induction bs using List.reverseRecOn generalizing st with
  | nil =>
    simp [validateStream, pure, Except.pure, DeliveryRules, contactsOf, historyOf, eq_comm]
  | append_singleton bs b ih =>
    rw [validateStream, foldlM_concat_eq_ok, deliveryRules_concat, historyOf_current_concat]
    simp only [← validateStream.eq_1, ih]
    constructor
    · intro h
      obtain ⟨m, ⟨hrules, rfl⟩, hb⟩ := h
      obtain ⟨hrule, hst⟩ := (validateBatch_stateOf C _ b st hrules.current_length).mp hb
      exact ⟨⟨hrules, hrule⟩, hst⟩
    · intro h
      obtain ⟨⟨hrules, hb⟩, hst⟩ := h
      exact ⟨_, ⟨hrules, rfl⟩,
        (validateBatch_stateOf C _ b st hrules.current_length).mpr ⟨hb, hst⟩⟩

/-- The batch check decides the delivery rules of the whole history. -/
theorem validateStream_accepts_iff (C : InputSourceCapabilities) (bs : List InputBatch) :
    (∃ st, validateStream C {} bs = .ok st) ↔ DeliveryRules C bs := by
  simp [validateStream_eq_ok]

end LightPhi.Input
