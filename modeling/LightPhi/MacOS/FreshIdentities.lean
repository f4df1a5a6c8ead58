import LightPhi.MacOS.Handover

/-! Identities as the receivers see them: over all sessions, a batch is handed over again only
because it was refused last, and otherwise its identities are above all that were handed over. -/
namespace LightPhi.MacOS
open Base Input Apple
open Fake (IInputReceiver)
variable {ι ω : Type*}

/-- The later batch begins a contact, or carries a sample, of a greater identity. -/
structure NewerBatch (earlier later : InputBatch) : Prop where
  sample : ∀ t ∈ earlier.samples, ∀ s ∈ later.samples, t.id.value < s.id.value
  contact : later.phase = .Begin → earlier.contact.value < later.contact.value

/-- A batch is handed over again at once when it was refused, or it is newer than all before. -/
def RetriedOrNewer (before : List (InputBatch × DeliveryResult))
    (handed : InputBatch × DeliveryResult) : Prop :=
  before.getLast? = some (handed.1, .Busy) ∨ ∀ earlier ∈ before, NewerBatch earlier.1 handed.1

theorem newerBatch_toBatch {e d : Delivery} (h : Newer e d) :
    NewerBatch (toBatch e) (toBatch d) := by
  have hsamples {x : Delivery} {s : InputSample} (hs : s ∈ (toBatch x).samples) :
      x.sample ≠ 0 ∧ s = toSample x := by
    simpa [toBatch] using hs
  constructor
  · intro t ht s hs
    obtain ⟨-, rfl⟩ := hsamples ht
    obtain ⟨hne, rfl⟩ := hsamples hs
    exact h.sample hne
  · intro hbegin
    apply h.contact
    cases hphase : d.phase <;> simp_all [toBatch, toContactPhase]

/-- The last offer since Start, when there was one, is the last batch handed over. -/
theorem offerings_getLast {trace : List CoreEvent} {d : Delivery} {decision : DeliveryDecision}
    (h : lastOffer trace = some (d, decision)) :
    (offerings trace).getLast? = some (toBatch d, toResult decision) := by
  induction trace using List.reverseRecOn with
  | nil => cases h
  | append_singleton trace event ih =>
    rw [lastOffer, List.foldl_concat] at h
    rw [offerings_append]
    cases event with
    | called op =>
      cases op with
      | start => cases h
      | submit event | retryPending | stop => simpa [offerings, offering?] using ih h
    | receive mask e answer =>
      obtain ⟨rfl, rfl⟩ := Prod.mk.inj (Option.some.inj h)
      simp [offerings, offering?]
    | stopped | failed failure => simpa [offerings, offering?] using ih h

theorem retriedOrNewer_of_offersNew {trace : List CoreEvent} (h : Always OffersNew trace) :
    Always RetriedOrNewer (offerings trace) := by
  intro before handed after heq
  obtain ⟨earlier, later, mask, d, decision, rfl, rfl, rfl⟩ := offer_of_offerings heq
  have hoffer := h earlier (.receive mask d decision) later rfl
  cases hoffer with
  | inl hrefused =>
    refine .inl ?_
    rw [refused] at hrefused
    split at hrefused
    · next last hlast =>
      obtain rfl := Option.some.inj hrefused
      exact offerings_getLast hlast
    · cases hrefused
  | inr hnewer =>
    refine .inr fun other hother => ?_
    obtain ⟨event, hmem, hoffered⟩ := List.mem_filterMap.mp hother
    cases event with
    | called op | stopped => cases hoffered
    | failed failure => cases hoffered
    | receive mask e answer =>
      obtain rfl := Option.some.inj hoffered
      exact newerBatch_toBatch (hnewer e (List.mem_filterMap.mpr ⟨_, hmem, rfl⟩))

namespace InputSource
variable [IInputReceiver ι ω]

/-- Over the whole life of a source, through all sessions and whatever receivers answer, no
contact identity begins a second contact and no sample identity comes with a second sample. -/
theorem hands_over_new {memory : Fake.Memory} {descriptor : InputSourceDescriptor} {world : ω}
    {source : InputSource ι (Observed ι ω)}
    (h : create memory descriptor { world := world } = .ok source) (steps : List (SourceStep ι))
    (hfew : 2 * steps.length < 2 ^ 64) :
    Always RetriedOrNewer (handedOver (run source steps).trace) := by
  obtain ⟨hpos, hfirst⟩ := reached_of_create h
  obtain ⟨trace, hreached⟩ := run_reached hpos hfirst steps hfew
  have hnew : Always OffersNew trace := QueueModel.offersNew_of_reaches hreached.tracks.reaches
    ⟨Nat.zero_le _, Nat.zero_le _, Nat.zero_le _, Nat.zero_le _, by simp, le_rfl⟩ rfl
  rw [hreached.handed]
  exact retriedOrNewer_of_offersNew hnew

/-- Two sessions, the second begun while a contact of the first still waited. -/
def twoSessions : List (SourceStep Unit) :=
  refusedTwice ++ [.stop, .start () {}, .capture { type := .leftMouseDown }]

theorem hands_over_new_sessions :
    Always RetriedOrNewer (handedOver (run oneSlot twoSessions).trace) :=
  hands_over_new oneSlot_created twoSessions (by decide)

end InputSource
end LightPhi.MacOS
