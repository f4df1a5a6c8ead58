import LightPhi.Input.DeliveryHistory
import Mathlib.Data.List.Chain

/-! Capabilities that grow while a source delivers. A stream whose batches pass one by one, each
under the set reported at its time, passes as a whole under the last set. -/
namespace LightPhi.Input
open Base

/-- The second set reports all that the first one does, and its batches may be as long. -/
structure Grows (C D : InputSourceCapabilities) : Prop where
  available : C.available &&& D.available = C.available
  bound : C.maximumBatchSamples ≤ D.maximumBatchSamples

/-- Every batch in turn, each checked under the set that comes with it. -/
def validateLive (state : DeliveryState) (stream : List (InputBatch × InputSourceCapabilities)) :
    Except BatchValidationError DeliveryState :=
  stream.foldlM (fun state (batch, capabilities) => validateBatch batch capabilities state) state

/-- As long as no timestamps are reported, the contact has none. -/
def Timeless (C : InputSourceCapabilities) (time : UInt64) : Prop :=
  ¬ supports C .Timestamp → time = 0

theorem Grows.refl (C : InputSourceCapabilities) : Grows C C := ⟨UInt16.and_self, UInt32.le_refl _⟩

theorem Grows.trans {C D E : InputSourceCapabilities} (h : Grows C D) (h' : Grows D E) :
    Grows C E := by
  refine ⟨?_, UInt32.le_trans h.bound h'.bound⟩
  calc C.available &&& E.available = C.available &&& D.available &&& E.available := by
        rw [h.available]
    _ = C.available &&& (D.available &&& E.available) := UInt16.and_assoc ..
    _ = C.available := by rw [h'.available, h.available]

section Grows
variable {C D : InputSourceCapabilities} (h : Grows C D)
include h

theorem Grows.supports {capability : InputCapability} (hC : supports C capability) :
    supports D capability := by
  rw [Input.supports, beq_iff_eq] at hC ⊢
  have heq : D.available &&& (C.available &&& capability) = capability := by
    rw [← UInt16.and_assoc, UInt16.and_comm D.available, h.available, hC]
  rwa [hC] at heq

/-- What the smaller set has not reported was not there, so time starts from nothing. -/
theorem Grows.timeless {time : UInt64} (ht : Timeless C time) : Timeless D time :=
  fun hD => ht fun hC => hD (h.supports hC)

theorem SampleContract.grows {s : InputSample} (hs : SampleContract C s) : SampleContract D s where
  identity := hs.identity
  corrects := hs.corrects
  origin := hs.origin
  finite := hs.finite
  pressureRange := hs.pressureRange
  pressure hp := h.supports (hs.pressure hp)
  timestamp hp := h.supports (hs.timestamp hp)
  tilt hp := h.supports (hs.tilt hp)
  twist hp := h.supports (hs.twist hp)
  eraser hp := h.supports (hs.eraser hp)
  hover hp := h.supports (hs.hover hp)
  coalescing hp := h.supports (hs.coalescing hp)
  prediction hp := h.supports (hs.prediction hp)
  correction hp := h.supports (hs.correction hp)

theorem EnvelopeRule.grows {b : InputBatch} (hb : EnvelopeRule C b) : EnvelopeRule D b := by
  have hbound := UInt32.le_iff_toNat_le.mp h.bound
  have hlength := hb.bound
  exact ⟨hb.contact, hb.phase, by omega, hb.nonempty, hb.cancel⟩

end Grows

/-- The checks on an origin do not look at the time. -/
theorem validateOrigin_timestamp {batch : InputBatch} {previous : DeliveryState} {index : Nat}
    {s : InputSample} {loop next : SampleLoop}
    (h : validateOrigin batch previous index s loop = .ok next) :
    next.scan.timestamp = loop.scan.timestamp := by
  cases validateOrigin_cases h with
  | inl hcommits =>
    obtain ⟨_, rfl⟩ := hcommits
    rfl
  | inr hkeeps =>
    subst hkeeps
    rfl

section Scan
variable {C D : InputSourceCapabilities} {batch : InputBatch} {previous : DeliveryState}

/-- One sample that passes under the smaller set passes under the larger one. -/
theorem validateSample_grows (h : Grows C D) {index : Nat} {s : InputSample}
    {loop next : SampleLoop} (ht : Timeless C loop.scan.timestamp)
    (hs : validateSample batch C previous index s loop = .ok next) :
    validateSample batch D previous index s loop = .ok next ∧
      Timeless C next.scan.timestamp := by
  unfold validateSample fail at hs ⊢
  cases hv : validate s C with
  | error error => simp [hv] at hs
  | ok u =>
    have hcontract := (validate_eq_ok s C).mp hv
    rw [(validate_eq_ok s D).mpr (hcontract.grows h)]
    simp only [hv] at hs ⊢
    split_ifs at hs with hid hsequence htime
    obtain ⟨checked, horigin, hnext⟩ := (bind_eq_ok _ _ _).mp hs
    have htimestamp : next.scan.timestamp = max loop.scan.timestamp s.timeNanoseconds := by
      rw [← Except.ok.inj hnext]
      exact validateOrigin_timestamp horigin
    have hzero : ¬ supports C .Timestamp → s.timeNanoseconds = 0 := by
      intro hC
      by_contra hne
      exact hC (hcontract.timestamp hne)
    have htime' : ¬ (supports D .Timestamp ∧ s.timeNanoseconds < loop.scan.timestamp) := by
      intro h
      obtain ⟨-, hlt⟩ := h
      by_cases hC : supports C .Timestamp
      · exact htime ⟨hC, hlt⟩
      · rw [ht hC] at hlt
        exact absurd hlt (not_lt.mpr UInt64.zero_le)
    rw [if_neg hid, if_neg hsequence, if_neg htime', horigin]
    refine ⟨hnext, fun hC => ?_⟩
    rw [htimestamp, ht hC, hzero hC]
    rfl

theorem validateSamplesFrom_grows (h : Grows C D) {samples : List InputSample} {index : Nat}
    {loop next : SampleLoop} (ht : Timeless C loop.scan.timestamp)
    (hs : validateSamplesFrom batch C previous index samples loop = .ok next) :
    validateSamplesFrom batch D previous index samples loop = .ok next ∧
      Timeless C next.scan.timestamp := by
  induction samples generalizing index loop with
  | nil =>
    simp only [validateSamplesFrom, Except.ok.injEq] at hs
    rw [← hs]
    exact ⟨rfl, ht⟩
  | cons s samples ih =>
    obtain ⟨middle, hfirst, hrest⟩ := (bind_eq_ok _ _ _).mp hs
    obtain ⟨hfirst', ht'⟩ := validateSample_grows h ht hfirst
    obtain ⟨hrest', hlast⟩ := ih ht' hrest
    exact ⟨(bind_eq_ok _ _ _).mpr ⟨middle, hfirst', hrest'⟩, hlast⟩

end Scan

/-- One batch that passes under the smaller set passes under the larger one, with the same state
behind it. -/
theorem validateBatch_grows {C D : InputSourceCapabilities} {batch : InputBatch}
    {state next : DeliveryState} (h : Grows C D) (ht : Timeless C state.lastTimestamp)
    (hb : validateBatch batch C state = .ok next) :
    validateBatch batch D state = .ok next ∧ Timeless C next.lastTimestamp := by
  obtain ⟨henv, entered, henter, loop, hloop, rfl⟩ := (validateBatch_eq_ok_iff _ _ _ _).mp hb
  have hentered : Timeless C entered.lastTimestamp := by
    cases (enterContact_eq_ok_iff _ _ _).mp henter with
    | inl hbegin =>
      obtain ⟨-, -, rfl⟩ := hbegin
      exact fun _ => rfl
    | inr hopen =>
      obtain ⟨-, -, -, -, rfl⟩ := hopen
      exact ht
  obtain ⟨hloop', hlast⟩ := validateSamplesFrom_grows h hentered hloop
  refine ⟨(validateBatch_eq_ok_iff _ _ _ _).mpr ⟨henv.grows h, entered, henter, loop, hloop', rfl⟩,
    ?_⟩
  unfold leaveBatch
  split_ifs
  · exact fun _ => rfl
  · exact hlast

/-- The stream under its growing sets, and the same batches under one set that is at least the
last of them. -/
theorem validateLive_grows {final : InputSourceCapabilities}
    {stream : List (InputBatch × InputSourceCapabilities)} {state : DeliveryState}
    (hgrows : (stream.map (·.2)).IsChain Grows)
    (hfinal : ∀ C ∈ (stream.map (·.2)).getLast?, Grows C final)
    (h : validateLive {} stream = .ok state) :
    validateStream final {} (stream.map (·.1)) = .ok state ∧
      ∀ C ∈ (stream.map (·.2)).getLast?, Timeless C state.lastTimestamp := by
  induction stream using List.reverseRecOn generalizing final state with
  | nil => exact ⟨h, by simp⟩
  | append_singleton earlier entry ih =>
    obtain ⟨batch, C⟩ := entry
    obtain ⟨middle, hearlier, hbatch⟩ := (foldlM_concat_eq_ok _ _ _ _ _).mp h
    simp only [List.map_append, List.map_cons, List.map_nil, List.getLast?_append,
      List.getLast?_singleton, Option.some_or, Option.mem_some_iff, forall_eq'] at hgrows hfinal ⊢
    obtain ⟨hchain, -, hlink⟩ := List.isChain_append.mp hgrows
    have hstep : ∀ D ∈ (earlier.map (·.2)).getLast?, Grows D C :=
      fun D hD => hlink D hD C (by simp)
    obtain ⟨hstream, htimeless⟩ := ih hchain (fun D hD => (hstep D hD).trans hfinal) hearlier
    have ht : Timeless C middle.lastTimestamp := by
      cases hlast : (earlier.map (·.2)).getLast? with
      | none =>
        have hnil : earlier = [] := by simpa using hlast
        rw [hnil] at hearlier
        rw [← Except.ok.inj hearlier]
        exact fun _ => rfl
      | some D => exact (hstep D hlast).timeless (htimeless D hlast)
    obtain ⟨hbatch', htime⟩ := validateBatch_grows hfinal ht hbatch
    exact ⟨(foldlM_concat_eq_ok _ _ _ _ _).mpr ⟨middle, hstream, hbatch'⟩, htime⟩

/-- Everything reported on the way is within what is at least the last set reported. -/
theorem grows_of_isChain {final : InputSourceCapabilities} {sets : List InputSourceCapabilities}
    (hgrows : sets.IsChain Grows) (hfinal : ∀ C ∈ sets.getLast?, Grows C final) :
    ∀ C ∈ sets, Grows C final := by
  induction sets using List.reverseRecOn generalizing final with
  | nil => simp
  | append_singleton earlier last ih =>
    obtain ⟨hchain, -, hlink⟩ := List.isChain_append.mp hgrows
    have hlast : Grows last final := hfinal last (by simp)
    have hearlier := ih hchain fun D hD => hlink D hD last (by simp)
    intro C hC
    cases List.mem_append.mp hC with
    | inl hC => exact (hearlier C hC).trans hlast
    | inr hC => rwa [List.mem_singleton.mp hC]

/-- A stream accepted under a set that grows from batch to batch is accepted under the last set,
and every set that is larger still, and goes through the same states. -/
theorem growing_agrees_with_final {final : InputSourceCapabilities}
    {stream : List (InputBatch × InputSourceCapabilities)}
    (hgrows : (stream.map (·.2)).IsChain Grows)
    (hfinal : ∀ C ∈ (stream.map (·.2)).getLast?, Grows C final)
    (haccepted : ∃ state, validateLive {} stream = .ok state) (k : Nat) :
    ∃ state, validateLive {} (stream.take k) = .ok state ∧
      validateStream final {} ((stream.map (·.1)).take k) = .ok state := by
  obtain ⟨last, hlast⟩ := haccepted
  rw [← List.take_append_drop k stream] at hlast
  obtain ⟨state, hstate, -⟩ := (foldlM_append_eq_ok _ _ _ _ _).mp hlast
  refine ⟨state, hstate, ?_⟩
  have hwithin := grows_of_isChain hgrows hfinal
  have hchain : ((stream.take k).map (·.2)).IsChain Grows := by
    rw [List.map_take]
    exact hgrows.take k
  have hprefix : ∀ C ∈ ((stream.take k).map (·.2)).getLast?, Grows C final := by
    intro C hC
    rw [List.map_take] at hC
    exact hwithin C (List.mem_of_mem_take (List.mem_of_getLast? hC))
  rw [← List.map_take]
  exact (validateLive_grows hchain hprefix hstate).1

/-- A pen whose first point comes before its clock is known. -/
def lateClock : List (InputBatch × InputSourceCapabilities) :=
  [({ contact := ⟨1⟩, batchOrdinal := 1, samples := [{ id := ⟨1⟩, sequence := 1 }] },
      { maximumBatchSamples := 1 }),
    ({ contact := ⟨1⟩, batchOrdinal := 2, phase := .End,
       samples := [{ id := ⟨2⟩, sequence := 2, timeNanoseconds := 7 }] },
      { available := .Timestamp, maximumBatchSamples := 1 })]

theorem growing_agrees_with_final_clock :
    ∃ state, validateLive {} (lateClock.take 2) = .ok state ∧
      validateStream { available := .Timestamp, maximumBatchSamples := 1 } {}
        ((lateClock.map (·.1)).take 2) = .ok state := by
  refine @growing_agrees_with_final _ lateClock ?_ ?_
    (exists_of_isOk (by decide +kernel)) 2
  · exact .cons_cons ⟨by decide, by decide⟩ (.singleton _)
  · intro C hC
    obtain rfl := Option.some.inj hC
    exact .refl _

end LightPhi.Input
