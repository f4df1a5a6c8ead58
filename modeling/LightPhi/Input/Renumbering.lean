import LightPhi.Input.CommittedOrder
import Mathlib.Data.Set.Function
import Mathlib.Order.Monotone.Basic

/-! The delivery rules see contacts, ordinals, identities, sequences and times only in their order:
a stream renumbered in the same order is accepted where the stream is. -/
namespace LightPhi.Input
open Base

structure Renumbering where
  contact : UInt64 → UInt64
  ordinal : UInt64 → UInt64
  id : UInt64 → UInt64
  sequence : UInt64 → UInt64
  time : UInt64 → UInt64

/-- The numbers of a stream that a renumbering must keep apart and in order. Zero stands for none,
and stays. -/
def KeepsOrder (f : UInt64 → UInt64) (used : List UInt64) : Prop :=
  f 0 = 0 ∧ StrictMonoOn f {n | n ∈ 0 :: used}

namespace KeepsOrder
variable {f : UInt64 → UInt64} {used : List UInt64} (h : KeepsOrder f used) {a b : UInt64}
include h

theorem lt_iff (ha : a ∈ used) (hb : b ∈ used) : f a < f b ↔ a < b :=
  h.2.lt_iff_lt (List.mem_cons_of_mem 0 ha) (List.mem_cons_of_mem 0 hb)

theorem le_iff (ha : a ∈ used) (hb : b ∈ used) : f a ≤ f b ↔ a ≤ b :=
  h.2.le_iff_le (List.mem_cons_of_mem 0 ha) (List.mem_cons_of_mem 0 hb)

theorem eq_iff (ha : a ∈ used) (hb : b ∈ used) : f a = f b ↔ a = b :=
  h.2.injOn.eq_iff (List.mem_cons_of_mem 0 ha) (List.mem_cons_of_mem 0 hb)

theorem zero_iff (ha : a ∈ used) : f a = 0 ↔ a = 0 := by
  have hzero := h.2.injOn.eq_iff (List.mem_cons_of_mem 0 ha) List.mem_cons_self
  rwa [h.1] at hzero

theorem ne_zero_iff (ha : a ∈ used) : f a ≠ 0 ↔ a ≠ 0 := not_congr (h.zero_iff ha)

end KeepsOrder

def Renumbering.sample (r : Renumbering) (s : InputSample) : InputSample :=
  { s with
    id := ⟨r.id s.id.value⟩
    corrects := ⟨r.id s.corrects.value⟩
    sequence := r.sequence s.sequence
    timeNanoseconds := r.time s.timeNanoseconds }

def Renumbering.batch (r : Renumbering) (b : InputBatch) : InputBatch :=
  { b with
    contact := ⟨r.contact b.contact.value⟩
    batchOrdinal := r.ordinal b.batchOrdinal
    samples := b.samples.map r.sample }

/-- The renumbering keeps the order of all that a stream numbers. -/
structure Renumbering.Keeps (r : Renumbering) (bs : List InputBatch) : Prop where
  contact : KeepsOrder r.contact (bs.map (·.contact.value))
  ordinal : KeepsOrder r.ordinal (bs.map (·.batchOrdinal))
  id : KeepsOrder r.id ((samplesOf bs).flatMap fun s => [s.id.value, s.corrects.value])
  sequence : KeepsOrder r.sequence ((samplesOf bs).map (·.sequence))
  time : KeepsOrder r.time ((samplesOf bs).map (·.timeNanoseconds))

theorem sampleId_eq_iff (a b : SampleId) : a = b ↔ a.value = b.value := by
  cases a
  cases b
  simp

theorem contactId_eq_iff (a b : ContactId) : a = b ↔ a.value = b.value := by
  cases a
  cases b
  simp

theorem mem_ids {samples : List InputSample} {s : InputSample} (hs : s ∈ samples) :
    s.id.value ∈ samples.flatMap fun s => [s.id.value, s.corrects.value] :=
  List.mem_flatMap.mpr ⟨s, hs, List.mem_cons_self⟩

theorem mem_corrects {samples : List InputSample} {s : InputSample} (hs : s ∈ samples) :
    s.corrects.value ∈ samples.flatMap fun s => [s.id.value, s.corrects.value] :=
  List.mem_flatMap.mpr ⟨s, hs, by simp⟩

section Samples
variable {r : Renumbering} {bs : List InputBatch} (h : r.Keeps bs) {C : InputSourceCapabilities}
  {s t : InputSample} (hs : s ∈ samplesOf bs) (ht : t ∈ samplesOf bs)

namespace Renumbering.Keeps
include h hs

theorem sampleContract_iff : SampleContract C (r.sample s) ↔ SampleContract C s := by
  have hid := h.id.ne_zero_iff (mem_ids hs)
  have hcorrects := h.id.ne_zero_iff (mem_corrects hs)
  have htime := h.time.ne_zero_iff (List.mem_map_of_mem hs)
  constructor
  · intro hcontract
    exact ⟨hid.mp hcontract.identity, hcorrects.symm.trans hcontract.corrects, hcontract.origin,
      hcontract.finite, hcontract.pressureRange, hcontract.pressure,
      fun hne => hcontract.timestamp (htime.mpr hne), hcontract.tilt, hcontract.twist,
      hcontract.eraser, hcontract.hover, hcontract.coalescing, hcontract.prediction,
      hcontract.correction⟩
  · intro hcontract
    exact ⟨hid.mpr hcontract.identity, hcorrects.trans hcontract.corrects, hcontract.origin,
      hcontract.finite, hcontract.pressureRange, hcontract.pressure,
      fun hne => hcontract.timestamp (htime.mp hne), hcontract.tilt, hcontract.twist,
      hcontract.eraser, hcontract.hover, hcontract.coalescing, hcontract.prediction,
      hcontract.correction⟩

theorem positive_iff : (r.sample s).sequence ≠ 0 ↔ s.sequence ≠ 0 :=
  h.sequence.ne_zero_iff (List.mem_map_of_mem hs)

include ht

theorem mayPrecede_iff : MayPrecede C (r.sample t) (r.sample s) ↔ MayPrecede C t s := by
  have hid := h.id.lt_iff (mem_ids ht) (mem_ids hs)
  have htime := h.time.le_iff (List.mem_map_of_mem ht) (List.mem_map_of_mem hs)
  have hsequence := h.sequence.lt_iff (List.mem_map_of_mem ht) (List.mem_map_of_mem hs)
  constructor
  · intro hmay
    exact ⟨hid.mp hmay.identity, fun hC => htime.mp (hmay.time hC),
      fun hcommitted hcorrected => hsequence.mp (hmay.sequence hcommitted hcorrected)⟩
  · intro hmay
    exact ⟨hid.mpr hmay.identity, fun hC => htime.mpr (hmay.time hC),
      fun hcommitted hcorrected => hsequence.mpr (hmay.sequence hcommitted hcorrected)⟩

theorem mayPrecedeInBatch_iff :
    MayPrecedeInBatch (r.sample t) (r.sample s) ↔ MayPrecedeInBatch t s := by
  have hcorrects : (r.sample t).corrects ≠ (r.sample s).corrects ↔ t.corrects ≠ s.corrects := by
    have heq := h.id.eq_iff (mem_corrects ht) (mem_corrects hs)
    rw [ne_eq, ne_eq, sampleId_eq_iff, sampleId_eq_iff]
    exact not_congr heq
  have hle := h.sequence.le_iff (List.mem_map_of_mem ht) (List.mem_map_of_mem hs)
  have hlt := h.sequence.lt_iff (List.mem_map_of_mem ht) (List.mem_map_of_mem hs)
  constructor
  · intro hmay
    exact ⟨hle.mp hmay.sequence, fun htp hsp => hlt.mp (hmay.prediction htp hsp),
      fun htc hsc => hcorrects.mp (hmay.correction htc hsc)⟩
  · intro hmay
    exact ⟨hle.mpr hmay.sequence, fun htp hsp => hlt.mpr (hmay.prediction htp hsp),
      fun htc hsc => hcorrects.mpr (hmay.correction htc hsc)⟩

theorem names_iff : ((r.sample t).id = (r.sample s).corrects ∧
    (r.sample t).sequence = (r.sample s).sequence) ↔
      t.id = s.corrects ∧ t.sequence = s.sequence := by
  rw [sampleId_eq_iff, sampleId_eq_iff]
  exact and_congr (h.id.eq_iff (mem_ids ht) (mem_corrects hs))
    (h.sequence.eq_iff (List.mem_map_of_mem ht) (List.mem_map_of_mem hs))

end Renumbering.Keeps
end Samples

section Batches
variable {r : Renumbering} {bs : List InputBatch} (h : r.Keeps bs) {C : InputSourceCapabilities}

theorem samplesOf_map (g : List InputBatch) :
    samplesOf (g.map r.batch) = (samplesOf g).map r.sample := by
  rw [samplesOf, samplesOf, List.flatMap_map, List.map_flatMap]
  rfl

theorem lastSamples_map (g : List InputBatch) :
    lastSamples (g.map r.batch) = (lastSamples g).map r.sample := by
  rw [lastSamples, lastSamples, List.getLast?_map]
  cases g.getLast? with
  | none => rfl
  | some last => rfl

theorem mem_samplesOf_of_last {g : List InputBatch} {s : InputSample} (hs : s ∈ lastSamples g) :
    s ∈ samplesOf g := by
  rw [lastSamples] at hs
  cases hlast : g.getLast? with
  | none => simp [hlast] at hs
  | some last =>
    rw [hlast] at hs
    exact List.mem_flatMap.mpr ⟨last, List.mem_of_getLast? hlast, hs⟩

theorem mem_samplesOf {g : List InputBatch} (hg : g ⊆ bs) {s : InputSample}
    (hs : s ∈ samplesOf g) : s ∈ samplesOf bs := by
  obtain ⟨b, hb, hs⟩ := List.mem_flatMap.mp hs
  exact List.mem_flatMap.mpr ⟨b, hg hb, hs⟩

namespace Renumbering.Keeps
include h

theorem envelopeRule_iff {b : InputBatch} (hb : b ∈ bs) :
    EnvelopeRule C (r.batch b) ↔ EnvelopeRule C b := by
  have hcontact := h.contact.ne_zero_iff (List.mem_map_of_mem hb)
  have hlength : (r.batch b).samples.length = b.samples.length := List.length_map ..
  have hnil : (r.batch b).samples = [] ↔ b.samples = [] := List.map_eq_nil_iff
  constructor
  · intro hrule
    exact ⟨hcontact.mp hrule.contact, hrule.phase, hlength ▸ hrule.bound,
      fun hphase hempty => hrule.nonempty hphase (hnil.mpr hempty),
      fun hphase => hnil.mp (hrule.cancel hphase)⟩
  · intro hrule
    exact ⟨hcontact.mpr hrule.contact, hrule.phase, hlength ▸ hrule.bound,
      fun hphase hempty => hrule.nonempty hphase (hnil.mp hempty),
      fun hphase => hnil.mpr (hrule.cancel hphase)⟩

theorem namesPrediction_iff {prior : List InputSample} (hprior : prior ⊆ samplesOf bs)
    {s : InputSample} (hs : s ∈ samplesOf bs) :
    NamesPrediction (prior.map r.sample) (r.sample s) ↔ NamesPrediction prior s := by
  apply imp_congr_right
  intro _
  simp only [List.mem_map, exists_exists_and_eq_and]
  apply exists_congr
  intro q
  apply and_congr_right
  intro hq
  exact and_congr_right fun _ => h.names_iff hs (hprior hq)

theorem contactContents_iff {g : List InputBatch} (hg : g ⊆ bs) :
    ContactContents C (g.map r.batch) ↔ ContactContents C g := by
  have hsamples : ∀ s ∈ samplesOf g, s ∈ samplesOf bs := fun s hs => mem_samplesOf hg hs
  have henvelope : (∀ b ∈ g.map r.batch, EnvelopeRule C b) ↔ ∀ b ∈ g, EnvelopeRule C b := by
    rw [List.forall_mem_map]
    exact forall₂_congr fun b hb => h.envelopeRule_iff (hg hb)
  have hcontact : (g.map r.batch).Pairwise (fun a b => a.contact = b.contact) ↔
      g.Pairwise fun a b => a.contact = b.contact := by
    rw [List.pairwise_map]
    apply List.Pairwise.iff_of_mem
    intro a b ha hb
    rw [contactId_eq_iff, contactId_eq_iff]
    exact h.contact.eq_iff (List.mem_map_of_mem (hg ha)) (List.mem_map_of_mem (hg hb))
  have hordinal : (g.map r.batch).Pairwise (fun a b => a.batchOrdinal < b.batchOrdinal) ↔
      g.Pairwise fun a b => a.batchOrdinal < b.batchOrdinal := by
    rw [List.pairwise_map]
    exact List.Pairwise.iff_of_mem fun ha hb =>
      h.ordinal.lt_iff (List.mem_map_of_mem (hg ha)) (List.mem_map_of_mem (hg hb))
  have hcontracts : (∀ s ∈ samplesOf (g.map r.batch), SampleContract C s) ↔
      ∀ s ∈ samplesOf g, SampleContract C s := by
    rw [samplesOf_map, List.forall_mem_map]
    exact forall₂_congr fun s hs => h.sampleContract_iff (hsamples s hs)
  have hpositive : (∀ s ∈ samplesOf (g.map r.batch), s.origin ≠ .Corrected → s.sequence ≠ 0) ↔
      ∀ s ∈ samplesOf g, s.origin ≠ .Corrected → s.sequence ≠ 0 := by
    rw [samplesOf_map, List.forall_mem_map]
    exact forall₂_congr fun s hs => imp_congr_right fun _ => h.positive_iff (hsamples s hs)
  have horder : (samplesOf (g.map r.batch)).Pairwise (MayPrecede C) ↔
      (samplesOf g).Pairwise (MayPrecede C) := by
    rw [samplesOf_map, List.pairwise_map]
    exact List.Pairwise.iff_of_mem fun ht hs => h.mayPrecede_iff (hsamples _ hs) (hsamples _ ht)
  have hbatch : (∀ b ∈ g.map r.batch, b.samples.Pairwise MayPrecedeInBatch) ↔
      ∀ b ∈ g, b.samples.Pairwise MayPrecedeInBatch := by
    rw [List.forall_mem_map]
    apply forall₂_congr
    intro b hb
    have hin : ∀ s ∈ b.samples, s ∈ samplesOf bs :=
      fun s hs => List.mem_flatMap.mpr ⟨b, hg hb, hs⟩
    rw [Renumbering.batch, List.pairwise_map]
    exact List.Pairwise.iff_of_mem fun ht hs => h.mayPrecedeInBatch_iff (hin _ hs) (hin _ ht)
  have hcorrections : Always (fun earlier b =>
        ∀ s ∈ b.samples, NamesPrediction (lastSamples earlier) s) (g.map r.batch) ↔
      Always (fun earlier b => ∀ s ∈ b.samples, NamesPrediction (lastSamples earlier) s) g := by
    apply always_map_iff
    rintro earlier b after rfl
    have hearlier : ∀ s ∈ lastSamples earlier, s ∈ samplesOf bs := by
      intro s hs
      apply hsamples
      rw [samplesOf, List.flatMap_append]
      exact List.mem_append_left _ (mem_samplesOf_of_last hs)
    have hb : ∀ s ∈ b.samples, s ∈ samplesOf bs := fun s hs =>
      List.mem_flatMap.mpr ⟨b, hg (by simp), hs⟩
    rw [lastSamples_map, Renumbering.batch, List.forall_mem_map]
    exact forall₂_congr fun s hs => h.namesPrediction_iff hearlier (hb s hs)
  constructor
  · intro hcontents
    exact ⟨henvelope.mp hcontents.envelope, hcontact.mp hcontents.contact,
      hordinal.mp hcontents.ordinals, hcontracts.mp hcontents.samples,
      hpositive.mp hcontents.positive, horder.mp hcontents.order, hbatch.mp hcontents.batchOrder,
      hcorrections.mp hcontents.corrections⟩
  · intro hcontents
    exact ⟨henvelope.mpr hcontents.envelope, hcontact.mpr hcontents.contact,
      hordinal.mpr hcontents.ordinals, hcontracts.mpr hcontents.samples,
      hpositive.mpr hcontents.positive, horder.mpr hcontents.order,
      hbatch.mpr hcontents.batchOrder, hcorrections.mpr hcontents.corrections⟩

end Renumbering.Keeps
theorem contactsOf_map (bs : List InputBatch) :
    contactsOf (bs.map r.batch) = (contactsOf bs).map fun g => g.map r.batch := by
  have hhistory : historyOf (bs.map r.batch) =
      { finished := (historyOf bs).finished.map fun g => g.map r.batch
        current := (historyOf bs).current.map r.batch } := by
    induction bs using List.reverseRecOn with
    | nil => rfl
    | append_singleton bs b ih =>
      rw [List.map_append, List.map_singleton, historyOf_concat, historyOf_concat, ih,
        History.record, History.record]
      have hphase : (r.batch b).phase = b.phase := rfl
      rw [hphase]
      split_ifs <;> simp
  rw [contactsOf, contactsOf, hhistory, List.map_append]
  simp only [List.map_eq_nil_iff]
  split_ifs <;> simp

/-- The rules hold of a stream just where they hold of it renumbered. -/
theorem Renumbering.Keeps.deliveryRules_iff (h : r.Keeps bs) :
    DeliveryRules C (bs.map r.batch) ↔ DeliveryRules C bs := by
  rw [DeliveryRules, DeliveryRules, contactsOf_map, List.forall_mem_map]
  apply forall₂_congr
  intro g hg
  have hsub : g ⊆ bs := by
    intro b hb
    rw [← flatten_contactsOf bs]
    exact List.mem_flatten_of_mem hg hb
  have hphases : (g.map r.batch).map (·.phase) = g.map (·.phase) := by
    rw [List.map_map]
    rfl
  constructor
  · intro hrules
    exact ⟨(h.contactContents_iff hsub).mp hrules.toContactContents, hphases ▸ hrules.phases⟩
  · intro hrules
    exact ⟨(h.contactContents_iff hsub).mpr hrules.toContactContents, hphases ▸ hrules.phases⟩

/-- The check depends on the order of the numbers alone. -/
theorem validateStream_renumbered (h : r.Keeps bs) :
    (∃ state, validateStream C {} (bs.map r.batch) = .ok state) ↔
      ∃ state, validateStream C {} bs = .ok state := by
  simp only [validateStream_eq_ok, exists_and_left, exists_eq, and_true, h.deliveryRules_iff]

end Batches

/-- Every number but zero moved up. -/
def shift (k n : UInt64) : UInt64 := if n = 0 then 0 else n + k

theorem keepsOrder_shift {k : UInt64} {used : List UInt64}
    (h : used.all fun n => n.toNat + k.toNat < 2 ^ 64) : KeepsOrder (shift k) used := by
  have h : ∀ n ∈ used, n.toNat + k.toNat < 2 ^ 64 := by simpa using h
  refine ⟨rfl, ?_⟩
  intro a ha b hb hlt
  have hne : b ≠ 0 := (Word.pos_iff_ne_zero b).mp (lt_of_le_of_lt UInt64.zero_le hlt)
  have hb := h b (List.mem_of_ne_of_mem hne hb)
  have hsum : (b + k).toNat = b.toNat + k.toNat := by
    rw [UInt64.toNat_add, Nat.mod_eq_of_lt hb]
  rw [UInt64.lt_iff_toNat_lt] at hlt
  rw [shift, shift, if_neg hne]
  split_ifs with hzero
  · rw [UInt64.lt_iff_toNat_lt, hsum]
    have hpos : (0 : UInt64).toNat = 0 := rfl
    have hbne : b.toNat ≠ 0 := fun hb0 => hne (UInt64.toNat_inj.mp hb0)
    omega
  · have ha := h a (List.mem_of_ne_of_mem hzero ha)
    have hsum' : (a + k).toNat = a.toNat + k.toNat := by
      rw [UInt64.toNat_add, Nat.mod_eq_of_lt ha]
    rw [UInt64.lt_iff_toNat_lt, hsum, hsum']
    omega

/-- A contact replayed later, under identities of its own. -/
def later : Renumbering where
  contact := shift 7
  ordinal := shift 20
  id := shift 1000
  sequence := shift 0
  time := shift 5000000000

theorem later_keeps : later.Keeps correctedFirst where
  contact := keepsOrder_shift (by decide)
  ordinal := keepsOrder_shift (by decide)
  id := keepsOrder_shift (by decide)
  sequence := keepsOrder_shift (by decide)
  time := keepsOrder_shift (by decide)

theorem validateStream_renumbered_later :
    (∃ state, validateStream allCapabilities {} (correctedFirst.map later.batch) = .ok state) ↔
      ∃ state, validateStream allCapabilities {} correctedFirst = .ok state :=
  validateStream_renumbered later_keeps

end LightPhi.Input
