import LightPhi.Apple.Identities

/-! What the core offers over a whole run: deliveries whose slots lie in the ring, refused ones
once more, and each sample under an identity of its own. -/
namespace LightPhi.Apple
open Base

/-- The slot of an offer lies in the ring. -/
def SlotBelow (bound : Nat) (_ : List CoreEvent) : CoreEvent → Prop
  | .receive _ d _ => d.slot.toNat < bound
  | _ => True

/-- The call being served. -/
def serving (trace : List CoreEvent) : Option CoreOp := (callsOf trace).getLast?

/-- An offer behind a refusal is the refused delivery once more, unless it is the cancellation of
Stop. -/
def RetriesRefused (before : List CoreEvent) : CoreEvent → Prop
  | .receive _ d _ => serving before ≠ some .stop → ∀ r, refused before = some r → d = r
  | _ => True

namespace QueueModel

/-- Everything that waits has its slot in the ring. -/
structure InRing (bound : Nat) (trace : List CoreEvent) (q : QueueModel) : Prop where
  capacity : q.capacity = bound
  pending : ∀ d ∈ q.pending, d.slot.toNat < bound
  offers : Always (SlotBelow bound) trace

theorem inRing_calls {bound : Nat} (hpos : 0 < bound) :
    CallsPreserve (fun _ _ _ => True) (InRing bound) where
  accepted {trace q d rest} _ hq h :=
    ⟨h.capacity, fun r hr => h.pending r (by simp [hq, hr]),
      (always_concat _ _).mpr ⟨h.offers, h.pending d (by simp [hq])⟩⟩
  busy {trace q d rest} _ hq h :=
    ⟨h.capacity, h.pending, (always_concat _ _).mpr ⟨h.offers, h.pending d (by simp [hq])⟩⟩
  rejected {trace q d rest} _ hq h :=
    ⟨h.capacity, by simp, (always_concat _ _).mpr ⟨h.offers, h.pending d (by simp [hq])⟩⟩
  start _ h := ⟨h.capacity, by simp, (always_concat _ _).mpr ⟨h.offers, trivial⟩⟩
  noted _ _ h := ⟨h.capacity, h.pending, (always_concat _ _).mpr ⟨h.offers, trivial⟩⟩
  device _ _ _ h := ⟨h.capacity, h.pending, (always_concat _ _).mpr ⟨h.offers, trivial⟩⟩
  queued {trace q event new} _ _ _ _ _ hslot _ h := by
    refine ⟨h.capacity, fun d hd => ?_, (always_concat _ _).mpr ⟨h.offers, trivial⟩⟩
    cases List.mem_append.mp hd with
    | inl hold => exact h.pending d hold
    | inr hnew =>
      rw [← h.capacity]
      exact hslot d hnew
  overflow _ _ _ _ _ h := ⟨h.capacity, by simp, h.offers.append (by simp [SlotBelow])⟩
  retried _ h := ⟨h.capacity, h.pending, (always_concat _ _).mpr ⟨h.offers, trivial⟩⟩
  cancelled _ _ _ h :=
    ⟨h.capacity, by simp, h.offers.append (by simp [SlotBelow, Cursor.cancellation, hpos])⟩
  closed _ _ h := ⟨h.capacity, by simp, h.offers.append (by simp [SlotBelow])⟩

/-- What was refused waits at the head, and was offered again from there. -/
structure Retrying (trace : List CoreEvent) (q : QueueModel) : Prop where
  head : RefusedAtHead trace q
  offers : Always RetriesRefused trace

theorem Retrying.offered {trace : List CoreEvent} {q : QueueModel} {d : Delivery}
    {rest : List Delivery} (h : Retrying trace q) (hs : q.started) (hq : q.pending = d :: rest)
    (mask : UInt16) (decision : DeliveryDecision) :
    Always RetriesRefused (trace ++ [.receive mask d decision]) := by
  refine (always_concat _ _).mpr ⟨h.offers, fun _ r hr => ?_⟩
  simpa [hq] using h.head hs r hr

theorem refusedAtHead_any : CallsPreserve (fun _ _ _ => True) RefusedAtHead :=
  refusedAtHead_calls _

theorem retrying_calls : CallsPreserve (fun _ _ _ => True) Retrying where
  accepted hs hq h := ⟨refusedAtHead_offers.accepted hs hq h.head, h.offered hs hq _ _⟩
  busy hs hq h := ⟨refusedAtHead_offers.busy hs hq h.head, h.offered hs hq _ _⟩
  rejected hs hq h := ⟨refusedAtHead_offers.rejected hs hq h.head, h.offered hs hq _ _⟩
  start ha h := ⟨refusedAtHead_any.start ha h.head,
    (always_concat _ _).mpr ⟨h.offers, trivial⟩⟩
  noted ha hn h := ⟨refusedAtHead_any.noted ha hn h.head,
    (always_concat _ _).mpr ⟨h.offers, trivial⟩⟩
  device ha hs hk h := ⟨refusedAtHead_any.device ha hs hk h.head,
    (always_concat _ _).mpr ⟨h.offers, trivial⟩⟩
  queued ha hs hk hnew hne hslot hroom h :=
    ⟨refusedAtHead_any.queued ha hs hk hnew hne hslot hroom h.head,
      (always_concat _ _).mpr ⟨h.offers, trivial⟩⟩
  overflow ha hs hk hfull hcut h :=
    ⟨refusedAtHead_any.overflow ha hs hk hfull hcut h.head,
      h.offers.append (by simp [RetriesRefused])⟩
  retried ha h := ⟨refusedAtHead_any.retried ha h.head,
    (always_concat _ _).mpr ⟨h.offers, trivial⟩⟩
  cancelled {trace q decision} ha hs ho h := by
    refine ⟨refusedAtHead_any.cancelled ha hs ho h.head, ?_⟩
    have hserving : serving (trace ++ [.called .stop]) = some .stop := by
      simp [serving, callsOf, CoreEvent.call?]
    rw [List.append_cons, List.append_cons (trace ++ _)]
    refine (always_concat _ _).mpr ⟨(always_concat _ _).mpr
      ⟨(always_concat _ _).mpr ⟨h.offers, trivial⟩, ?_⟩, trivial⟩
    exact fun hne => absurd hserving hne
  closed ha hc h := ⟨refusedAtHead_any.closed ha hc h.head,
    h.offers.append (by simp [RetriesRefused])⟩

end QueueModel

/-- A refused delivery is one that was offered. -/
theorem mem_offersOf_of_refused {trace : List CoreEvent} {d : Delivery}
    (h : refused trace = some d) : d ∈ offersOf trace := by
  have hlast : ∀ decision, lastOffer trace = some (d, decision) → d ∈ offersOf trace := by
    clear h
    induction trace using List.reverseRecOn with
    | nil => simp [lastOffer]
    | append_singleton trace event ih =>
      intro decision hoffer
      rw [offersOf_append, List.mem_append]
      cases event with
      | receive mask e answer =>
        rw [lastOffer_receive, Option.some.injEq, Prod.mk.injEq] at hoffer
        exact Or.inr (by simp [hoffer.1])
      | called op =>
        by_cases hop : op = .start
        · simp [hop] at hoffer
        · rw [lastOffer_called _ _ hop] at hoffer
          exact Or.inl (ih decision hoffer)
      | stopped => exact Or.inl (ih decision (by simpa [lastOffer] using hoffer))
      | failed failure => exact Or.inl (ih decision (by simpa [lastOffer] using hoffer))
  rw [refused] at h
  split at h
  · obtain rfl := Option.some.inj h
    exact hlast _ ‹_›
  · cases h

/-- In a run that gives no identity twice, a sample identity belongs to one delivery. -/
theorem eq_of_sample {trace : List CoreEvent} (h : Always OffersNew trace) {d e : Delivery}
    (hd : d ∈ offersOf trace) (he : e ∈ offersOf trace) (hsample : d.sample = e.sample)
    (hne : d.sample ≠ 0) : d = e := by
  induction trace using List.reverseRecOn generalizing d e with
  | nil => simp at hd
  | append_singleton trace event ih =>
    obtain ⟨hbefore, hnew⟩ := (always_concat _ _).mp h
    cases event with
    | receive mask x decision =>
      have hagain {y : Delivery} (hy : y ∈ offersOf trace) (hsame : y.sample = x.sample)
          (hx : x.sample ≠ 0) : y = x := by
        cases hnew with
        | inl hrefused => exact ih hbefore hy (mem_offersOf_of_refused hrefused) hsame (hsame ▸ hx)
        | inr hfresh => exact absurd ((hfresh y hy).sample hx) (by rw [hsame]; exact lt_irrefl _)
      rw [offersOf_append, List.mem_append, offersOf_receive, offersOf_nil, List.mem_singleton]
        at hd he
      cases hd with
      | inl hd =>
        cases he with
        | inl he => exact ih hbefore hd he hsample hne
        | inr he =>
          subst he
          exact hagain hd hsample (hsample ▸ hne)
      | inr hd =>
        subst hd
        cases he with
        | inl he => exact (hagain he hsample.symm hne).symm
        | inr he => exact he.symm
    | called _ | stopped | failed _ =>
      exact ih hbefore (by simpa using hd) (by simpa using he) hsample hne

end LightPhi.Apple
