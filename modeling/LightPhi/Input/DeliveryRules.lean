import LightPhi.Base.Sequences
import LightPhi.Base.Trace
import LightPhi.Input.BatchValidation
import Mathlib.Data.List.Induction

/-! The delivery rules over the whole history of a source. Nothing here refers to the bounded
state a checker carries: every rule compares a batch or a sample with all that came before. -/
namespace LightPhi.Input
open Base

/-- Whether samples of this origin commit their sequence. -/
def SampleOrigin.committed : SampleOrigin → Bool
  | .Measured | .Coalesced | .Corrected => true
  | .Predicted | .Invented _ => false

/-- Whether samples of this origin were observed by the device as they are. -/
def SampleOrigin.observed : SampleOrigin → Bool
  | .Measured | .Coalesced => true
  | .Corrected | .Predicted | .Invented _ => false

structure EnvelopeRule (C : InputSourceCapabilities) (b : InputBatch) : Prop where
  contact : b.contact.value ≠ 0
  phase : b.phase ∈ [ContactPhase.Begin, .Update, .End, .Cancel]
  bound : b.samples.length ≤ min C.maximumBatchSamples.toNat maximumBatchSamples
  nonempty : b.phase = .Begin ∨ b.phase = .Update → b.samples ≠ []
  cancel : b.phase = .Cancel → b.samples = []

/-- What `t` must satisfy to come anywhere before `s` in one contact. -/
structure MayPrecede (C : InputSourceCapabilities) (t s : InputSample) : Prop where
  identity : t.id.value < s.id.value
  time : supports C .Timestamp → t.timeNanoseconds ≤ s.timeNanoseconds
  sequence : t.origin.committed → s.origin ≠ .Corrected → t.sequence < s.sequence

/-- What `t` must satisfy besides to come before `s` in one batch. -/
structure MayPrecedeInBatch (t s : InputSample) : Prop where
  sequence : t.sequence ≤ s.sequence
  prediction : t.origin = .Predicted → s.origin = .Predicted → t.sequence < s.sequence
  correction : t.origin = .Corrected → s.origin = .Corrected → t.corrects ≠ s.corrects

/-- A correction repeats identity and sequence of a prediction among the given samples. -/
def NamesPrediction (prior : List InputSample) (s : InputSample) : Prop :=
  s.origin = .Corrected →
    ∃ q ∈ prior, q.origin = .Predicted ∧ q.id = s.corrects ∧ q.sequence = s.sequence

def samplesOf (contact : List InputBatch) : List InputSample := contact.flatMap (·.samples)

def lastSamples (earlier : List InputBatch) : List InputSample :=
  (earlier.getLast?.map (·.samples)).getD []

def OpenPhases (phases : List ContactPhase) : Prop :=
  ∃ n, phases = .Begin :: List.replicate n .Update

/-- Begin, any number of Updates, and an End or a Cancel unless the contact is unfinished. -/
def ContactPhases (phases : List ContactPhase) : Prop :=
  OpenPhases phases ∨ ∃ earlier last, phases = earlier ++ [last] ∧ OpenPhases earlier ∧ last.closes

/-- What the batches of one contact, in delivery order, must satisfy whatever their phases. -/
structure ContactContents (C : InputSourceCapabilities) (g : List InputBatch) : Prop where
  envelope : ∀ b ∈ g, EnvelopeRule C b
  contact : g.Pairwise fun a b => a.contact = b.contact
  ordinals : g.Pairwise fun a b => a.batchOrdinal < b.batchOrdinal
  samples : ∀ s ∈ samplesOf g, SampleContract C s
  positive : ∀ s ∈ samplesOf g, s.origin ≠ .Corrected → s.sequence ≠ 0
  order : (samplesOf g).Pairwise (MayPrecede C)
  batchOrder : ∀ b ∈ g, b.samples.Pairwise MayPrecedeInBatch
  corrections : Always (fun earlier b => ∀ s ∈ b.samples, NamesPrediction (lastSamples earlier) s) g

/-- The rules of one contact, finished or not. -/
structure ContactRules (C : InputSourceCapabilities) (g : List InputBatch) : Prop extends
    ContactContents C g where
  phases : ContactPhases (g.map (·.phase))

/-- A history cut into the contacts already closed and the batches since the last close. -/
structure History where
  finished : List (List InputBatch) := []
  current : List InputBatch := []

def History.record (h : History) (b : InputBatch) : History :=
  if b.phase.closes then { finished := h.finished ++ [h.current ++ [b]], current := [] }
  else { h with current := h.current ++ [b] }

def historyOf (batches : List InputBatch) : History := batches.foldl History.record {}

/-- The contacts of a history in order: it is cut behind every End and every Cancel, so only the
last contact can be unfinished. -/
def contactsOf (batches : List InputBatch) : List (List InputBatch) :=
  (historyOf batches).finished ++
    if (historyOf batches).current = [] then [] else [(historyOf batches).current]

/-- The delivery rules of a whole history under one capability set. -/
def DeliveryRules (C : InputSourceCapabilities) (batches : List InputBatch) : Prop :=
  ∀ g ∈ contactsOf batches, ContactRules C g

theorem historyOf_concat (bs : List InputBatch) (b : InputBatch) :
    historyOf (bs ++ [b]) = (historyOf bs).record b := by
  simp [historyOf]

/-- Cutting loses nothing: the contacts in order are the history. -/
theorem flatten_contactsOf (bs : List InputBatch) : (contactsOf bs).flatten = bs := by
  have h : (historyOf bs).finished.flatten ++ (historyOf bs).current = bs := by
    induction bs using List.reverseRecOn with
    | nil => rfl
    | append_singleton bs b ih =>
      rw [historyOf_concat, History.record]
      split_ifs
      · simp [← List.append_assoc, ih]
      · simp [← List.append_assoc, ih]
  rw [contactsOf]
  split_ifs with hc
  · simpa [hc] using h
  · simpa using h

@[simp] theorem samplesOf_nil : samplesOf [] = [] := rfl

@[simp] theorem samplesOf_concat (g : List InputBatch) (b : InputBatch) :
    samplesOf (g ++ [b]) = samplesOf g ++ b.samples := by
  simp [samplesOf]

@[simp] theorem lastSamples_concat (g : List InputBatch) (b : InputBatch) :
    lastSamples (g ++ [b]) = b.samples := by
  simp [lastSamples]

@[simp] theorem lastSamples_nil : lastSamples [] = [] := rfl

theorem closes_iff (phase : ContactPhase) :
    phase.closes ↔ phase = .End ∨ phase = .Cancel := by
  simp [ContactPhase.closes]

theorem committed_of_observed {origin : SampleOrigin} (h : origin.observed) :
    origin.committed := by
  cases origin <;> simp_all [SampleOrigin.observed, SampleOrigin.committed]

theorem phase_defined_iff (phase : ContactPhase) :
    ¬ lastContactPhase.value < phase.value ↔
      phase ∈ [ContactPhase.Begin, .Update, .End, .Cancel] := by
  cases phase <;> simp [lastContactPhase, ContactPhase.value]
  omega

theorem validateEnvelope_eq_ok (b : InputBatch) (C : InputSourceCapabilities) :
    validateEnvelope b C = .ok () ↔ EnvelopeRule C b := by
  unfold validateEnvelope fail
  split_ifs with hcontact hphase hbound hempty hcancel
  · simp only [false_iff]
    exact fun h => h.contact hcontact
  · simp only [false_iff]
    exact fun h => (phase_defined_iff b.phase).mpr h.phase hphase
  · simp only [false_iff]
    intro h
    have := h.bound
    omega
  · simp only [false_iff]
    exact fun h => h.nonempty hempty.1 hempty.2
  · simp only [false_iff]
    exact fun h => hcancel.2 (h.cancel hcancel.1)
  · simp only [true_iff]
    refine ⟨hcontact, (phase_defined_iff b.phase).mp hphase, by omega, ?_, ?_⟩
    · exact fun hp hs => hempty ⟨hp, hs⟩
    · intro hp
      by_contra hs
      exact hcancel ⟨hp, hs⟩

end LightPhi.Input
