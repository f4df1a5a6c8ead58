import LightPhi.Input.ArrayAccess

/-! The states a receiver may hold. Whatever it is offered under whatever capabilities, and
whichever of the batches that pass it takes, its state is one that the next check can rely on. -/
namespace LightPhi.Input
open Base

/-- One batch checked, under what its source reports; the receiver may still not take it. -/
structure Attempt where
  batch : InputBatch
  capabilities : InputSourceCapabilities
  taken : Bool := true

/-- The state held, and the batch it was kept for. -/
structure Checker where
  state : DeliveryState := {}
  last : Option InputBatch := none

def Checker.attempt (c : Checker) (a : Attempt) : Checker :=
  match validateBatch a.batch a.capabilities c.state with
  | .ok next => if a.taken then { state := next, last := some a.batch } else c
  | .error _ => c

def checkerAfter (attempts : List Attempt) : Checker := attempts.foldl Checker.attempt {}

/-- The identities that count. -/
def DeliveryState.keptIds (state : DeliveryState) : List SampleId :=
  state.previousPredictionIds.toList.take state.previousPredictionCount

def DeliveryState.keptSequences (state : DeliveryState) : List UInt64 :=
  state.previousPredictionSequences.toList.take state.previousPredictionCount

/-- What holds of every state, the last batch being the one it was kept for. -/
structure DeliveryState.WellFormed (state : DeliveryState) (last : Option InputBatch) : Prop where
  count : state.previousPredictionCount ≤ maximumBatchSamples
  contact : state.contactOpen ↔ state.contact.value ≠ 0
  closed : ¬ state.contactOpen → state = {}
  kept : state.contactOpen → ∃ batch ∈ last,
    state.keptIds = (predictionsOf batch.samples).map (·.id) ∧
      state.keptSequences = (predictionsOf batch.samples).map (·.sequence)
  idsIncrease : state.keptIds.Pairwise (·.value < ·.value)
  sequencesIncrease : state.keptSequences.Pairwise (· < ·)
  identities : ∀ id ∈ state.keptIds, id.value ≠ 0 ∧ id.value ≤ state.lastSampleId
  laterIds : ∀ id ∈ state.previousPredictionIds.toList.drop state.previousPredictionCount,
    id.value = 0
  laterSequences : ∀ sequence ∈
    state.previousPredictionSequences.toList.drop state.previousPredictionCount, sequence = 0

/-- The state is that of an unfinished or absent contact, each batch of which passed in its time. -/
structure Checker.InContact (c : Checker) (current : List InputBatch) : Prop where
  state : c.state = stateOf current
  last : ∀ b ∈ current.getLast?, c.last = some b
  rules : ∀ b ∈ current, ∃ C earlier, BatchRule C earlier b

theorem Checker.InContact.attempt {c : Checker} {current : List InputBatch}
    (h : c.InContact current) (a : Attempt) : ∃ current', (c.attempt a).InContact current' := by
  have hlengths : ∀ b ∈ current, b.samples.length ≤ maximumBatchSamples := by
    intro b hb
    obtain ⟨C, earlier, hrule⟩ := h.rules b hb
    exact hrule.envelope.length_le
  rw [Checker.attempt]
  cases hchecked : validateBatch a.batch a.capabilities c.state with
  | error _ => exact ⟨current, h⟩
  | ok next =>
    dsimp only
    split_ifs with htaken
    · rw [h.state, validateBatch_stateOf _ _ _ _ hlengths] at hchecked
      obtain ⟨hrule, rfl⟩ := hchecked
      refine ⟨currentAfter current a.batch, rfl, ?_, ?_⟩
      · rw [currentAfter]
        split_ifs
        · simp
        · simp
      · rw [currentAfter]
        split_ifs
        · simp
        · refine List.forall_mem_append.mpr ⟨h.rules, ?_⟩
          exact List.forall_mem_singleton.mpr ⟨_, _, hrule⟩
    · exact ⟨current, h⟩

theorem inContact_after (attempts : List Attempt) :
    ∃ current, (checkerAfter attempts).InContact current := by
  induction attempts using List.reverseRecOn with
  | nil => exact ⟨[], rfl, by simp, by simp⟩
  | append_singleton attempts a ih =>
    obtain ⟨current, h⟩ := ih
    rw [checkerAfter, List.foldl_concat]
    exact h.attempt a

section Predictions
variable {C : InputSourceCapabilities} {earlier : List InputBatch} {b : InputBatch}

theorem BatchRule.predictions (h : BatchRule C earlier b) :
    (∀ s ∈ predictionsOf b.samples, s.id.value ≠ 0) ∧
      (predictionsOf b.samples).Pairwise (·.id.value < ·.id.value) ∧
      (predictionsOf b.samples).Pairwise (·.sequence < ·.sequence) := by
  obtain ⟨hcontract, -, ⟨horder, -⟩, hbatch, -⟩ := (following_sampleRule_iff ..).mp h.samples
  refine ⟨fun s hs => (hcontract s (mem_predictionsOf.mp hs).1).identity, ?_, ?_⟩
  · exact (horder.imp fun h => h.identity).sublist List.filter_sublist
  · refine List.pairwise_filter.mpr (hbatch.imp fun h ht hs => ?_)
    exact h.prediction (by simpa using ht) (by simpa using hs)

end Predictions

theorem wellFormed_closed (last : Option InputBatch) : ({} : DeliveryState).WellFormed last where
  count := Nat.zero_le _
  contact := by simp
  closed _ := rfl
  kept h := absurd h (by simp)
  idsIncrease := List.Pairwise.nil
  sequencesIncrease := List.Pairwise.nil
  identities := by simp [DeliveryState.keptIds]
  laterIds id hid := by
    rw [Vector.toList_replicate, List.drop_zero] at hid
    rw [List.eq_of_mem_replicate hid]
    rfl
  laterSequences sequence hsequence := by
    rw [Vector.toList_replicate, List.drop_zero] at hsequence
    exact List.eq_of_mem_replicate hsequence

/-- The state behind a batch that passed and left its contact open. -/
theorem wellFormed_open {C : InputSourceCapabilities} {before earlier : List InputBatch}
    {b : InputBatch} (h : BatchRule C earlier b) :
    (openState (before ++ [b]) b).WellFormed (some b) := by
  have hroom : (predictionsOf b.samples).length ≤ maximumBatchSamples :=
    (List.length_filter_le _ _).trans h.envelope.length_le
  obtain ⟨hidentity, hids, hsequences⟩ := h.predictions
  have hkeptIds : (openState (before ++ [b]) b).keptIds = (predictionsOf b.samples).map (·.id) :=
    take_padded_map _ hroom
  have hkeptSequences : (openState (before ++ [b]) b).keptSequences =
      (predictionsOf b.samples).map (·.sequence) := take_padded_map _ hroom
  have hlast : ∀ s ∈ b.samples, s.id.value ≤ highestId (samplesOf (before ++ [b])) := by
    have hall := ((runningMax_le_iff 0 _ _).mp (le_refl (highestId (samplesOf (before ++ [b]))))).2
    intro s hs
    exact hall _ (List.mem_map_of_mem (by simp [hs]))
  constructor
  case count => exact hroom
  case contact => simpa [openState] using h.envelope.contact
  case closed => exact fun hclosed => absurd rfl hclosed
  case kept => exact fun _ => ⟨b, rfl, hkeptIds, hkeptSequences⟩
  case idsIncrease => rwa [hkeptIds, List.pairwise_map]
  case sequencesIncrease => rwa [hkeptSequences, List.pairwise_map]
  case identities =>
    rw [hkeptIds, List.forall_mem_map]
    exact fun s hs => ⟨hidentity s hs, hlast s (mem_predictionsOf.mp hs).1⟩
  case laterIds =>
    intro id hid
    rw [mem_drop_padded_map _ hroom id hid]
    rfl
  case laterSequences => exact mem_drop_padded_map _ hroom

/-- In every state a receiver may come to hold, the predictions of the last batch are kept as they
were, and from there no batch makes a check access an array outside of its bounds. -/
theorem reached_wellFormed (attempts : List Attempt) :
    (checkerAfter attempts).state.WellFormed (checkerAfter attempts).last ∧
      ∀ batch capabilities,
        (Accessing.validateBatch batch capabilities (checkerAfter attempts).state).run =
          some (validateBatch batch capabilities (checkerAfter attempts).state) := by
  obtain ⟨current, h⟩ := inContact_after attempts
  have hwf : (checkerAfter attempts).state.WellFormed (checkerAfter attempts).last := by
    rw [h.state]
    cases List.eq_nil_or_concat' current with
    | inl hnil =>
      subst hnil
      exact wellFormed_closed _
    | inr hconcat =>
      obtain ⟨before, b, rfl⟩ := hconcat
      obtain ⟨C, earlier, hrule⟩ := h.rules b (by simp)
      rw [h.last b (by simp), stateOf_concat]
      exact wellFormed_open hrule
  exact ⟨hwf, fun batch capabilities => Accessing.validateBatch_eq hwf.count batch capabilities⟩

end LightPhi.Input
