import LightPhi.Input.GrowingCapabilities

/-! What a stream needs of its source. The capabilities of the values its samples populate decide,
beside the rules under all capabilities, under which sets it passes. -/
namespace LightPhi.Input
open Base Word

/-- The capabilities of the fields a sample populates. -/
def populated (s : InputSample) : InputCapability :=
  union (((requirements s).filter (·.1)).map (·.2.2))

/-- The capabilities of everything a stream carries. -/
def needed (batches : List InputBatch) : InputCapability :=
  union ((samplesOf batches).map populated)

/-- Everything reported, in batches of the given length. -/
def everyCapability (bound : UInt32) : InputSourceCapabilities :=
  { available := allInputCapabilities, maximumBatchSamples := bound }

theorem supports_populated_iff (C : InputSourceCapabilities) (s : InputSample) :
    supports C (populated s) ↔ requireReported s C = .ok () := by
  have hrequired : requireReported s C = .ok () ↔
      ∀ requirement ∈ requirements s, requirement.1 → supports C requirement.2.2 := by
    rw [requireReported, forM_eq_ok]
    simp [requireCapability_eq_ok]
  have hunion : supports C (populated s) ↔
      ∀ bits ∈ ((requirements s).filter (·.1)).map (·.2.2), supports C bits :=
    contains_union_iff C.available _
  rw [hrequired, hunion]
  simp only [List.forall_mem_map, List.mem_filter, and_imp]

theorem supports_needed_iff (C : InputSourceCapabilities) (batches : List InputBatch) :
    supports C (needed batches) ↔ ∀ s ∈ samplesOf batches, supports C (populated s) := by
  have hunion : supports C (needed batches) ↔
      ∀ bits ∈ (samplesOf batches).map populated, supports C bits :=
    contains_union_iff C.available _
  rw [hunion, List.forall_mem_map]

theorem supports_every (bound : UInt32) {capability : InputCapability}
    (h : allInputCapabilities &&& capability = capability) :
    supports (everyCapability bound) capability := by
  rw [supports, beq_iff_eq]
  exact h

theorem mem_samplesOf_flatten {s : InputSample} {contacts : List (List InputBatch)} :
    s ∈ samplesOf contacts.flatten ↔ ∃ g ∈ contacts, s ∈ samplesOf g := by
  induction contacts with
  | nil => simp
  | cons g contacts ih =>
    have hcons : samplesOf (g :: contacts).flatten =
        samplesOf g ++ samplesOf contacts.flatten := by
      rw [List.flatten_cons, samplesOf, List.flatMap_append]
      rfl
    rw [hcons, List.mem_append, ih, List.exists_mem_cons_iff]

section Every
variable (C : InputSourceCapabilities)

/-- A sample that meets the contract under everything needs no more than what it populates. -/
theorem sampleContract_iff_populated (s : InputSample) :
    SampleContract C s ↔
      SampleContract (everyCapability C.maximumBatchSamples) s ∧ supports C (populated s) := by
  have hreported : SampleContract C s → requireReported s C = .ok () := fun h =>
    (requireReported_eq_ok s C).mpr ⟨h.pressure, h.timestamp, h.tilt, h.twist, h.eraser, h.hover,
      h.coalescing, h.prediction, h.correction⟩
  have hevery {capability : InputCapability}
      (h : allInputCapabilities &&& capability = capability) :=
    supports_every C.maximumBatchSamples h
  rw [supports_populated_iff]
  constructor
  · intro h
    refine ⟨?_, hreported h⟩
    exact ⟨h.identity, h.corrects, h.origin, h.finite, h.pressureRange, fun _ => hevery rfl,
      fun _ => hevery rfl, fun _ => hevery rfl, fun _ => hevery rfl, fun _ => hevery rfl,
      fun _ => hevery rfl, fun _ => hevery rfl, fun _ => hevery rfl, fun _ => hevery rfl⟩
  · intro h
    obtain ⟨hall, hrequired⟩ := h
    obtain ⟨h1, h2, h3, h4, h5, h6, h7, h8, h9⟩ := (requireReported_eq_ok s C).mp hrequired
    exact ⟨hall.identity, hall.corrects, hall.origin, hall.finite, hall.pressureRange,
      h1, h2, h3, h4, h5, h6, h7, h8, h9⟩

theorem envelopeRule_every (b : InputBatch) :
    EnvelopeRule C b ↔ EnvelopeRule (everyCapability C.maximumBatchSamples) b :=
  ⟨fun h => ⟨h.contact, h.phase, h.bound, h.nonempty, h.cancel⟩,
    fun h => ⟨h.contact, h.phase, h.bound, h.nonempty, h.cancel⟩⟩

/-- Without a clock all times are zero, and in order. -/
theorem mayPrecede_every {t s : InputSample} (ht : SampleContract C t)
    (h : MayPrecede C t s) : MayPrecede (everyCapability C.maximumBatchSamples) t s := by
  refine ⟨h.identity, fun _ => ?_, h.sequence⟩
  by_cases hclock : supports C .Timestamp
  · exact h.time hclock
  · have hzero : t.timeNanoseconds = 0 := by
      by_contra hne
      exact hclock (ht.timestamp hne)
    rw [hzero]
    exact UInt64.zero_le

/-- The rules of one contact under a set are those under everything, and that the set reports what
the samples populate. -/
theorem contactRules_iff_populated (g : List InputBatch) :
    ContactRules C g ↔ ContactRules (everyCapability C.maximumBatchSamples) g ∧
      ∀ s ∈ samplesOf g, supports C (populated s) := by
  constructor
  · intro h
    have hcontract (s : InputSample) (hs : s ∈ samplesOf g) :=
      (sampleContract_iff_populated C s).mp (h.samples s hs)
    have horder : (samplesOf g).Pairwise
        (MayPrecede (everyCapability C.maximumBatchSamples)) := by
      apply h.order.imp_of_mem
      intro t s ht _ hprecede
      exact mayPrecede_every C (h.samples t ht) hprecede
    refine ⟨⟨⟨fun b hb => (envelopeRule_every C b).mp (h.envelope b hb), h.contact, h.ordinals,
      fun s hs => (hcontract s hs).1, h.positive, horder, h.batchOrder, h.corrections⟩, h.phases⟩,
      fun s hs => (hcontract s hs).2⟩
  · intro h
    obtain ⟨hevery, hpopulated⟩ := h
    have horder : (samplesOf g).Pairwise (MayPrecede C) := by
      apply hevery.order.imp
      intro t s hprecede
      exact ⟨hprecede.identity, fun _ => hprecede.time (supports_every _ rfl), hprecede.sequence⟩
    exact ⟨⟨fun b hb => (envelopeRule_every C b).mpr (hevery.envelope b hb), hevery.contact,
      hevery.ordinals,
      fun s hs => (sampleContract_iff_populated C s).mpr ⟨hevery.samples s hs, hpopulated s hs⟩,
      hevery.positive, horder, hevery.batchOrder, hevery.corrections⟩, hevery.phases⟩

theorem deliveryRules_iff_needed (batches : List InputBatch) :
    DeliveryRules C batches ↔
      DeliveryRules (everyCapability C.maximumBatchSamples) batches ∧
        supports C (needed batches) := by
  have hsamples : (∀ s ∈ samplesOf batches, supports C (populated s)) ↔
      ∀ g ∈ contactsOf batches, ∀ s ∈ samplesOf g, supports C (populated s) := by
    have hmem (s : InputSample) :
        s ∈ samplesOf batches ↔ ∃ g ∈ contactsOf batches, s ∈ samplesOf g := by
      rw [← mem_samplesOf_flatten, flatten_contactsOf]
    constructor
    · intro h g hg s hs
      exact h s ((hmem s).mpr ⟨g, hg, hs⟩)
    · intro h s hs
      obtain ⟨g, hg, hsg⟩ := (hmem s).mp hs
      exact h g hg s hsg
  rw [supports_needed_iff, hsamples]
  simp only [DeliveryRules, contactRules_iff_populated C, forall_and]

end Every

/-- A stream passes under a set when it passes under everything and the set has all the stream
needs, and then through the same states: of the sets it passes under, one is the least. -/
theorem accepted_iff_needed (C : InputSourceCapabilities) (batches : List InputBatch)
    (state : DeliveryState) :
    validateStream C {} batches = .ok state ↔
      validateStream (everyCapability C.maximumBatchSamples) {} batches = .ok state ∧
        supports C (needed batches) := by
  rw [validateStream_eq_ok, validateStream_eq_ok, deliveryRules_iff_needed]
  tauto

section Batch
variable {C D : InputSourceCapabilities} {batch : InputBatch} {previous : DeliveryState}

end Batch
end LightPhi.Input
