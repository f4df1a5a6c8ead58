import LightPhi.Apple.Wraparound

/-! Within one session the target sees the translated events, in order, whatever its timing. -/
namespace LightPhi.Apple
open Base

/-- An offer that follows a refusal is the refused delivery once more, in the same slot. -/
def OffersRefused (before : List CoreEvent) : CoreEvent → Prop
  | .receive _ d _ => ∀ r ∈ refused before, d = r
  | _ => True

instance (before : List CoreEvent) : ∀ event, Decidable (OffersRefused before event)
  | .receive _ d _ => inferInstanceAs (Decidable (∀ r ∈ refused before, d = r))
  | .called _ | .stopped | .failed _ => inferInstanceAs (Decidable True)

namespace Cursor

/-- An event that yields nothing moves nothing. -/
theorem translate_of_nil {c : Cursor} {event : CapturedEvent} (h : (c.translate event).2 = []) :
    (c.translate event).1 = c := by
  unfold translate at h ⊢
  cases hk : event.kind
  all_goals simp only [hk] at h ⊢
  case Begin => simp at h
  all_goals split_ifs at h ⊢
  all_goals simp_all

theorem translate_device {c : Cursor} {event : CapturedEvent}
    (h : event.kind = .DeviceObserved) : c.translate event = (c, []) := by
  simp [translate, h]

end Cursor

namespace QueueModel

/-- The refused delivery waits at the head. -/
def RefusedAtHead (trace : List CoreEvent) (q : QueueModel) : Prop :=
  q.started → ∀ r, refused trace = some r → q.pending.head? = some r

theorem refusedAtHead_of_unrefused {trace : List CoreEvent} (q : QueueModel)
    (h : refused trace = none) : RefusedAtHead trace q := by
  simp [RefusedAtHead, h]

theorem refused_append_called (trace : List CoreEvent) {op : CoreOp} (h : op ≠ .start) :
    refused (trace ++ [.called op]) = refused trace := by
  simp [refused, h]

theorem refusedAtHead_offers : OffersPreserve RefusedAtHead where
  accepted _ _ _ := refusedAtHead_of_unrefused _ (by simp [refused])
  busy {trace q d rest} _ hq _ := by
    intro _ r hr
    obtain rfl : d = r := by simpa [refused] using hr
    simp [hq]
  rejected _ _ _ := refusedAtHead_of_unrefused _ (by simp [refused])

theorem refusedAtHead_calls (allowed : List CoreEvent → QueueModel → CoreOp → Prop) :
    CallsPreserve allowed RefusedAtHead where
  toOffersPreserve := refusedAtHead_offers
  start _ _ := refusedAtHead_of_unrefused _ (by simp [refused])
  noted _ _ h := by simpa [RefusedAtHead, refused] using h
  device _ _ _ h := by simpa [RefusedAtHead, refused] using h
  queued {trace q event new} _ hs _ _ _ _ _ h := by
    intro _ r hr
    rw [refused_append_called trace (by simp)] at hr
    have hhead := h hs r hr
    simp [hhead]
  overflow _ _ _ _ _ _ := by simp [RefusedAtHead, stopped]
  retried _ h := by simpa [RefusedAtHead, refused] using h
  cancelled _ _ _ _ := by simp [RefusedAtHead, stopped]
  closed _ _ _ := by simp [RefusedAtHead, stopped]

/-- The calls of one running session. -/
def Running (_ : List CoreEvent) (_ : QueueModel) (op : CoreOp) : Prop := op ≠ .start ∧ op ≠ .stop

theorem offersRefused_calls :
    CallsPreserve Running fun trace q => RefusedAtHead trace q ∧ Always OffersRefused trace := by
  have hoffer {trace q d rest decision} (hs : q.started) (hq : q.pending = d :: rest)
      (h : RefusedAtHead trace q ∧ Always OffersRefused trace) :
      Always OffersRefused (trace ++ [.receive q.capabilities d decision]) := by
    refine (always_concat _ _).mpr ⟨h.2, ?_⟩
    intro r hr
    simpa [hq] using h.1 hs r hr
  have hcall {trace op} (h : Always OffersRefused trace) :
      Always OffersRefused (trace ++ [.called op]) :=
    (always_concat _ _).mpr ⟨h, trivial⟩
  have hhead := refusedAtHead_calls Running
  exact {
    accepted := fun hs hq h => ⟨hhead.accepted hs hq h.1, hoffer hs hq h⟩
    busy := fun hs hq h => ⟨hhead.busy hs hq h.1, hoffer hs hq h⟩
    rejected := fun hs hq h => ⟨hhead.rejected hs hq h.1, hoffer hs hq h⟩
    start := fun ha _ => absurd rfl ha.1
    noted := fun ha hn h => ⟨hhead.noted ha hn h.1, hcall h.2⟩
    device := fun ha hs hk h => ⟨hhead.device ha hs hk h.1, hcall h.2⟩
    queued := fun ha hs hk hnew hne hslot hroom h =>
      ⟨hhead.queued ha hs hk hnew hne hslot hroom h.1, hcall h.2⟩
    overflow := fun ha hs hk hfull hcut h => by
      refine ⟨hhead.overflow ha hs hk hfull hcut h.1, ?_⟩
      rw [List.append_cons]
      exact (always_concat _ _).mpr ⟨hcall h.2, trivial⟩
    retried := fun ha h => ⟨hhead.retried ha h.1, hcall h.2⟩
    cancelled := fun ha _ _ _ => absurd rfl ha.2
    closed := fun ha _ _ => absurd rfl ha.2 }

/-- Accepted and waiting deliveries together are the translation of what was submitted. -/
structure Translated (first : Cursor) (trace : List CoreEvent) (q : QueueModel) : Prop where
  started : q.started
  deliveries : (acceptedOf trace ++ q.pending).map Delivery.unslotted =
    (first.translateAll (eventsIn trace)).2
  cursor : q.cursor = (first.translateAll (eventsIn trace)).1

theorem translated_calls (first : Cursor) :
    CallsPreserve Running fun trace q => NothingAbandoned trace → Translated first trace q where
  accepted {trace q d rest} hs hq h := by
    intro hclean
    obtain ⟨-, hdeliveries, hcursor⟩ := h (nothingAbandoned_append.mp hclean).1
    exact ⟨hs, by simpa [hq] using hdeliveries, by simpa using hcursor⟩
  busy hs _ h := by
    intro hclean
    obtain ⟨-, hdeliveries, hcursor⟩ := h (nothingAbandoned_append.mp hclean).1
    exact ⟨hs, by simpa using hdeliveries, by simpa using hcursor⟩
  rejected _ _ _ := by
    intro hclean
    have habandons := (nothingAbandoned_append.mp hclean).2 _ (List.mem_singleton_self _)
    simp [CoreEvent.abandons] at habandons
  start ha _ := absurd rfl ha.1
  noted {trace q event} _ hn h := by
    intro hclean
    obtain ⟨hs, hdeliveries, hcursor⟩ := h (nothingAbandoned_append.mp hclean).1
    have hnil := (hn hs).2
    have hsame := Cursor.translate_of_nil hnil
    rw [hcursor] at hnil hsame
    refine ⟨hs, ?_, ?_⟩
    · simpa [Cursor.translateAll_concat, hnil] using hdeliveries
    · simpa [Cursor.translateAll_concat, hsame] using hcursor
  device {trace q event} _ hs hk h := by
    intro hclean
    obtain ⟨-, hdeliveries, hcursor⟩ := h (nothingAbandoned_append.mp hclean).1
    refine ⟨hs, ?_, ?_⟩
    · simpa [Cursor.translateAll_concat, Cursor.translate_device hk] using hdeliveries
    · simpa [Cursor.translateAll_concat, Cursor.translate_device hk] using hcursor
  queued {trace q event new} _ hs _ hnew _ _ _ h := by
    intro hclean
    obtain ⟨-, hdeliveries, hcursor⟩ := h (nothingAbandoned_append.mp hclean).1
    refine ⟨hs, ?_, ?_⟩
    · simp only [List.map_append] at hdeliveries
      simp [Cursor.translateAll_concat, ← hcursor, ← hdeliveries, hnew]
    · simp [Cursor.translateAll_concat, hcursor]
  overflow _ _ _ _ _ _ := by
    intro hclean
    have habandons := (nothingAbandoned_append.mp hclean).2 (.failed .Overflow) (by simp)
    simp [CoreEvent.abandons] at habandons
  retried {trace q} _ h := by
    intro hclean
    obtain ⟨hs, hdeliveries, hcursor⟩ := h (nothingAbandoned_append.mp hclean).1
    exact ⟨hs, by simpa using hdeliveries, by simpa using hcursor⟩
  cancelled ha _ _ _ := absurd rfl ha.2
  closed ha _ _ := absurd rfl ha.2

end QueueModel

namespace Session
variable {τ : Type*} [IDeliveryTarget τ]

/-- One session of calls to Submit and RetryPending, on a core with any past: what the target
accepted and what still waits is the translation of the submitted events, and a refused delivery
is the next one offered, in its slot, unless something was abandoned. -/
theorem delivers_translation {queueCapacity : UInt32} (hpos : 0 < queueCapacity)
    (hbound : queueCapacity.toNat ≤ 2 ^ 31) (target : τ) (before ops : List CoreOp)
    (hops : ∀ op ∈ ops, op ≠ .start ∧ op ≠ .stop) :
    let first := run queueCapacity target (before ++ [.start])
    let last := ops.foldl perform first
    NothingAbandoned (sessionTrace first last) →
      (acceptedOf (sessionTrace first last) ++ last.core.pending).map Delivery.unslotted =
          (first.core.cursor.translateAll (submittedBy ops)).2 ∧
        Always OffersRefused (sessionTrace first last) := by
  intro first last hclean
  have hwf : first.core.WellFormed := run_wellFormed hpos hbound target _
  have hrunning : Always (fun earlier op => QueueModel.Running
      (sessionTrace first (earlier.foldl perform first))
      (earlier.foldl perform first).core.model op) ops := by
    intro earlier op later heq
    subst heq
    exact hops op (by simp)
  obtain ⟨hreach, -, hcalls, -⟩ := runFrom_refines hwf QueueModel.Running ops hrunning
  have hstarted : first.core.model.started ∧ first.core.model.pending = [] := by
    simp only [first, run_concat, perform]
    exact ⟨rfl, rfl⟩
  have htranslated := hreach.invariant (QueueModel.translated_calls first.core.cursor).preserves
    (fun _ => ⟨hstarted.1, by simp [hstarted.2, acceptedOf, eventsIn, submittedBy, callsOf,
      Cursor.translateAll], rfl⟩) hclean
  have hoffers := hreach.invariant QueueModel.offersRefused_calls.preserves
    ⟨QueueModel.refusedAtHead_of_unrefused _ rfl, always_nil⟩
  refine ⟨?_, hoffers.2⟩
  rw [← hcalls]
  exact htranslated.deliveries

/-- The update is refused once. -/
def oneRetry : List CoreOp := longContact 1 ++ [.retryPending]

theorem delivers_translation_retried :
    let first := run 2 (Script.busyFor 1 1) [.start]
    let last := oneRetry.foldl perform first
    (acceptedOf (sessionTrace first last) ++ last.core.pending).map Delivery.unslotted =
        (first.core.cursor.translateAll (submittedBy oneRetry)).2 ∧
      Always OffersRefused (sessionTrace first last) :=
  delivers_translation (by decide) (by decide) _ [] oneRetry (by decide) (by decide +kernel)

/-- The largest capacity there is loses a delivery of a contact of 2^32 updates. -/
theorem translation_lost :
    let first := run 0xFFFFFFFF (Script.busyFor 0xFFFFFFFE 3) [.start]
    let last := (longContact (2 ^ 32)).foldl perform first
    NothingAbandoned (sessionTrace first last) ∧
      (acceptedOf (sessionTrace first last) ++ last.core.pending).map Delivery.unslotted ≠
        (first.core.cursor.translateAll (submittedBy (longContact (2 ^ 32)))).2 :=
  pending_lost (N := 0xFFFFFFFF) (by decide) rfl

end Session
end LightPhi.Apple
