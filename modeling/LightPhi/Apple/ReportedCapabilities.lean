import LightPhi.Apple.Refinement
import LightPhi.Base.Word

/-! What a delivery carries against what the core reports while it is offered. -/
namespace LightPhi.Apple
open Base Word

/-- The mask has the bit of every value the delivery carries. -/
structure Covers (mask : UInt16) (d : Delivery) : Prop where
  pressure : d.pressure.ne .zero → contains mask CapturedCapability.Pressure
  tilt : d.tiltXRadians.ne .zero ∨ d.tiltYRadians.ne .zero →
    contains mask CapturedCapability.Tilt
  twist : d.twistRadians.ne .zero → contains mask CapturedCapability.Twist
  eraser : d.eraser → contains mask CapturedCapability.Eraser

instance (mask : UInt16) (d : Delivery) : Decidable (Covers mask d) :=
  decidable_of_iff ((d.pressure.ne .zero → contains mask CapturedCapability.Pressure) ∧
      (d.tiltXRadians.ne .zero ∨ d.tiltYRadians.ne .zero →
        contains mask CapturedCapability.Tilt) ∧
      (d.twistRadians.ne .zero → contains mask CapturedCapability.Twist) ∧
      (d.eraser → contains mask CapturedCapability.Eraser))
    ⟨fun h => ⟨h.1, h.2.1, h.2.2.1, h.2.2.2⟩, fun h => ⟨h.pressure, h.tilt, h.twist, h.eraser⟩⟩

/-- While a delivery is offered, the core reports Timestamp and all that the delivery carries. -/
def OffersCovered (_ : List CoreEvent) : CoreEvent → Prop
  | .receive mask d _ => Covers mask d ∧ contains mask CapturedCapability.Timestamp
  | _ => True

instance (before : List CoreEvent) : ∀ event, Decidable (OffersCovered before event)
  | .receive mask d _ =>
    inferInstanceAs (Decidable (Covers mask d ∧ contains mask CapturedCapability.Timestamp))
  | .called _ | .stopped | .failed _ => inferInstanceAs (Decidable True)

/-- An event is submitted with the eraser only while the core reports an eraser. -/
def EraserReported (q : QueueModel) : CoreOp → Prop
  | .submit event => event.eraser → contains q.capabilities CapturedCapability.Eraser
  | _ => True

instance (q : QueueModel) : ∀ op, Decidable (EraserReported q op)
  | .submit event =>
    inferInstanceAs (Decidable (event.eraser → contains q.capabilities CapturedCapability.Eraser))
  | .start | .retryPending | .stop => inferInstanceAs (Decidable True)

/-- What a device reports covers every delivery that still waits. -/
def ReportCoversQueue (q : QueueModel) : CoreOp → Prop
  | .submit event => event.kind = .DeviceObserved → ∀ d ∈ q.pending, Covers event.capabilities d
  | _ => True

instance (q : QueueModel) : ∀ op, Decidable (ReportCoversQueue q op)
  | .submit event => inferInstanceAs
    (Decidable (event.kind = .DeviceObserved → ∀ d ∈ q.pending, Covers event.capabilities d))
  | .start | .retryPending | .stop => inferInstanceAs (Decidable True)

theorem Covers.mono {mask mask' : UInt16} {d : Delivery} (h : Covers mask d)
    (hmask : ∀ bits, contains mask bits → contains mask' bits) : Covers mask' d :=
  ⟨fun hv => hmask _ (h.pressure hv), fun hv => hmask _ (h.tilt hv),
    fun hv => hmask _ (h.twist hv), fun hv => hmask _ (h.eraser hv)⟩

theorem covers_unslotted {mask : UInt16} {d : Delivery} : Covers mask d.unslotted ↔ Covers mask d :=
  ⟨fun h => ⟨h.pressure, h.tilt, h.twist, h.eraser⟩,
    fun h => ⟨h.pressure, h.tilt, h.twist, h.eraser⟩⟩

theorem contains_growMask_of {mask bits : UInt16} (populated : Bool) (bit : UInt16)
    (h : contains mask bits) : contains (growMask populated bit mask) bits := by
  unfold growMask
  split_ifs
  · exact contains_or_left bit h
  · exact h

theorem contains_growMask {populated : Bool} (mask bit : UInt16) (h : populated) :
    contains (growMask populated bit mask) bit := by
  rw [growMask, if_pos h]
  exact contains_or_right mask bit

theorem contains_observedMask {mask bits : UInt16} (event : CapturedEvent)
    (h : contains mask bits) : contains (observedMask event mask) bits :=
  contains_growMask_of _ _ (contains_growMask_of _ _ (contains_growMask_of _ _ h))

theorem covers_cancellation (mask : UInt16) (c : Cursor) : Covers mask c.cancellation :=
  ⟨by simp [Cursor.cancellation], by simp [Cursor.cancellation], by simp [Cursor.cancellation],
    by simp [Cursor.cancellation]⟩

/-- A clamped value needs no capability that the value itself does not need. -/
theorem ne_zero_of_clamp_tilt {v : Binary64} (h : (v.clamp halfPi.neg halfPi).ne .zero) :
    v.ne .zero :=
  Binary64.ne_zero_of_clamp (by decide) (by decide) h

theorem covers_point (mask : UInt16) (c : Cursor) (phase : DeliveryPhase) (event : CapturedEvent)
    (he : event.eraser → contains mask CapturedCapability.Eraser) :
    Covers (observedMask event mask) (c.point phase event) := by
  refine ⟨?_, ?_, ?_, fun h => contains_observedMask event (he h)⟩
  · intro h
    have hv : event.pressure.ne .zero := Binary64.ne_zero_of_clamp (by decide) (by decide) h
    exact contains_growMask_of _ _ (contains_growMask_of _ _ (contains_growMask _ _ hv))
  · intro h
    have hv : event.tiltXRadians.ne .zero || event.tiltYRadians.ne .zero := by
      rw [Bool.or_eq_true]
      exact h.imp ne_zero_of_clamp_tilt ne_zero_of_clamp_tilt
    exact contains_growMask_of _ _ (contains_growMask _ _ hv)
  · exact fun h => contains_growMask _ _ h

namespace QueueModel

/-- The core reports Timestamp, and all that waiting deliveries carry. -/
structure Reports (trace : List CoreEvent) (q : QueueModel) : Prop where
  timestamp : contains q.capabilities CapturedCapability.Timestamp
  pending : ∀ d ∈ q.pending, Covers q.capabilities d
  offers : Always OffersCovered trace

theorem Reports.noted {trace : List CoreEvent} {q : QueueModel} (h : Reports trace q)
    (event : CoreEvent) (he : OffersCovered trace event) : Reports (trace ++ [event]) q :=
  ⟨h.timestamp, h.pending, (always_concat _ _).mpr ⟨h.offers, he⟩⟩

theorem Reports.offered {trace : List CoreEvent} {q : QueueModel} {d : Delivery}
    (h : Reports trace q) (decision : DeliveryDecision) (hd : Covers q.capabilities d) :
    Reports (trace ++ [.receive q.capabilities d decision]) q := by
  exact h.noted _ ⟨hd, h.timestamp⟩

theorem Reports.cleared {trace : List CoreEvent} {q : QueueModel} (h : Reports trace q) :
    Reports trace q.cleared :=
  ⟨h.timestamp, by simp [QueueModel.cleared], h.offers⟩

theorem Reports.stopped {trace : List CoreEvent} {q : QueueModel} (h : Reports trace q) :
    Reports trace q.stopped :=
  ⟨h.timestamp, by simp [QueueModel.stopped, QueueModel.cleared], h.offers⟩

theorem contains_maskAfter {q : QueueModel} {bits : UInt16} (event : CapturedEvent)
    (h : contains q.capabilities bits) : contains (q.maskAfter event) bits := by
  unfold maskAfter
  split_ifs
  · exact h
  · exact contains_observedMask event h

/-- Whatever an event is translated to is covered once its values were observed. -/
theorem covers_maskAfter {q : QueueModel} {event : CapturedEvent}
    (he : event.eraser → contains q.capabilities CapturedCapability.Eraser) :
    ∀ d ∈ (q.cursor.translate event).2, Covers (q.maskAfter event) d := by
  intro d hd
  cases Cursor.mem_translate hd with
  | inl hcancel =>
    obtain ⟨-, rfl⟩ := hcancel
    exact covers_cancellation _ _
  | inr hpoint =>
    obtain ⟨hk, hpoint⟩ := hpoint
    rw [maskAfter, if_neg hk]
    cases hpoint with
    | inl hbegin =>
      obtain ⟨-, rfl⟩ := hbegin
      exact covers_point _ _ _ _ he
    | inr hextend =>
      obtain ⟨-, -, rfl⟩ := hextend
      exact covers_point _ _ _ _ he

theorem reports_calls : CallsPreserve
    (fun _ q op => EraserReported q op ∧ ReportCoversQueue q op) Reports where
  accepted {trace q d rest} _ hq h := by
    have ho := h.offered .Accepted (h.pending d (by simp [hq]))
    exact ⟨ho.timestamp, fun p hp => ho.pending p (by simp [hq, hp]), ho.offers⟩
  busy {trace q d rest} _ hq h := h.offered .Busy (h.pending d (by simp [hq]))
  rejected {trace q d rest} _ hq h := (h.offered .Rejected (h.pending d (by simp [hq]))).cleared
  start _ h :=
    have hs := (h.noted (.called .start) trivial).cleared
    ⟨hs.timestamp, hs.pending, hs.offers⟩
  noted _ _ h := h.noted _ trivial
  device {trace q event} ha _ hk h := by
    have hn := h.noted (.called (.submit event)) trivial
    refine ⟨contains_or_right _ _, ?_, hn.offers⟩
    intro d hd
    exact (ha.2 hk d hd).mono fun bits => contains_or_left _
  queued {trace q event new} ha _ _ hnew _ _ _ h := by
    have hn := h.noted (.called (.submit event)) trivial
    refine ⟨contains_maskAfter event h.timestamp, ?_, hn.offers⟩
    intro d hd
    cases List.mem_append.mp hd with
    | inl hd => exact (h.pending d hd).mono fun bits => contains_maskAfter event
    | inr hd =>
      rw [← covers_unslotted]
      apply covers_maskAfter ha.1
      rw [← hnew]
      exact List.mem_map_of_mem hd
  overflow {trace q event cursor mask} _ _ _ _ hcut h := by
    have hn := (h.noted (.called (.submit event)) trivial).noted (.failed .Overflow) trivial
    rw [← List.append_cons] at hn
    refine ⟨?_, by simp [QueueModel.stopped, QueueModel.cleared], hn.offers⟩
    cases hcut with
    | inl hcut =>
      obtain ⟨-, rfl⟩ := hcut
      exact h.timestamp
    | inr hcut =>
      obtain ⟨-, rfl⟩ := hcut
      exact contains_maskAfter event h.timestamp
  retried _ h := h.noted _ trivial
  cancelled {trace q decision} _ _ _ h := by
    have hcall := h.noted (.called .stop) trivial
    have hoffer := hcall.offered decision (covers_cancellation _ q.cursor)
    have hend := (hoffer.noted (.stopped) trivial).stopped
    simpa using hend
  closed {trace q} _ _ h := by
    have hcall := h.noted (.called .stop) trivial
    simpa using (hcall.noted (.stopped) trivial).stopped

end QueueModel

namespace Session
variable {τ : Type*} [IDeliveryTarget τ]

/-- As long as every device report covers the deliveries that wait, no offer carries a value that
the core does not report while it is made. -/
theorem offers_covered {queueCapacity : UInt32} (hpos : 0 < queueCapacity)
    (hbound : queueCapacity.toNat ≤ 2 ^ 31) (target : τ) (ops : List CoreOp)
    (heraser : Always (fun before op =>
      EraserReported (run queueCapacity target before).core.model op) ops)
    (hreport : Always (fun before op =>
      ReportCoversQueue (run queueCapacity target before).core.model op) ops) :
    Always OffersCovered (run queueCapacity target ops).target.trace := by
  obtain ⟨hreach, -, -⟩ := run_refines hpos hbound target
    (fun _ q op => EraserReported q op ∧ ReportCoversQueue q op) ops
    fun before op after h => ⟨heraser before op after h, hreport before op after h⟩
  have hfirst : contains CapturedCapability.Timestamp CapturedCapability.Timestamp := by decide
  exact (hreach.invariant QueueModel.reports_calls.preserves ⟨hfirst, by simp, always_nil⟩).offers

/-- A pen that presses, on a device that may be replaced by one that only knows the time. -/
def pressedBegin : CapturedEvent := { kind := .Begin, pressure := .one }

def pressedThenReported (capabilities : UInt16) : List CoreOp :=
  [.start, .submit pressedBegin,
    .submit { kind := .DeviceObserved, capabilities := capabilities }, .retryPending]

/-- The new device knows pressure as well. -/
theorem offers_covered_pressure :
    Always OffersCovered (run 1 (Script.always .Busy)
      (pressedThenReported CapturedCapability.Pressure)).target.trace :=
  offers_covered (by decide) (by decide) _ _ (by decide +kernel) (by decide +kernel)

/-- The waiting delivery carries a pressure that the mask no longer has. -/
theorem offer_not_covered :
    ¬ Always OffersCovered (run 1 (Script.always .Busy) (pressedThenReported 0)).target.trace := by
  decide +kernel

end Session
end LightPhi.Apple
