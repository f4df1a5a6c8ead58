import LightPhi.Apple.DeliveryOrder
import LightPhi.Base.Word

/-! Contact and sample identities over the whole life of a core: none is given twice. -/
namespace LightPhi.Apple
open Base

/-- The later delivery opens a contact, or carries a sample, of a greater identity. -/
structure Newer (earlier later : Delivery) : Prop where
  sample : later.sample ≠ 0 → earlier.sample < later.sample
  contact : later.phase = .Begin → earlier.contact < later.contact

/-- A delivery is offered again because it was refused, or its identities were never used. -/
def OffersNew (before : List CoreEvent) : CoreEvent → Prop
  | .receive _ d _ => refused before = some d ∨ ∀ earlier ∈ offersOf before, Newer earlier d
  | _ => True

/-- The counters of a session that has seen `n` events: none of them has wrapped. -/
structure Counted (n : Nat) (c : Cursor) : Prop where
  nextContact : c.nextContact.toNat ≤ n
  nextSample : c.nextSample.toNat ≤ n
  batchOrdinal : c.batchOrdinal.toNat ≤ n
  sequence : c.sequence.toNat ≤ n
  contact : c.contactOpen → c.contact ≠ 0
  contactLe : c.contact ≤ c.nextContact

theorem Counted.closed {n : Nat} {c : Cursor} (h : Counted n c) : Counted n c.closed :=
  ⟨h.nextContact, h.nextSample, Nat.zero_le n, Nat.zero_le n, by simp [Cursor.closed],
    UInt64.zero_le⟩

theorem Counted.mono {n m : Nat} {c : Cursor} (h : Counted n c) (hnm : n ≤ m) : Counted m c :=
  ⟨h.nextContact.trans hnm, h.nextSample.trans hnm, h.batchOrdinal.trans hnm,
    h.sequence.trans hnm, h.contact, h.contactLe⟩

theorem lt_succ_of_le {n : Nat} {a : UInt64} (hn : n + 1 < 2 ^ 64) (ha : a.toNat ≤ n) :
    a < a + 1 := Word.lt_add_one (by omega)

theorem succ_ne_zero_of_le {n : Nat} {a : UInt64} (hn : n + 1 < 2 ^ 64) (ha : a.toNat ≤ n) :
    a + 1 ≠ 0 :=
  (Word.pos_iff_ne_zero _).mp (lt_of_le_of_lt UInt64.zero_le (lt_succ_of_le hn ha))

section Step
variable {n : Nat} {c : Cursor} (h : Counted n c) (hn : n + 1 < 2 ^ 64)
include h hn

theorem Counted.advanced : Counted (n + 1) c.advanced := by
  have hsucc {a : UInt64} (ha : a.toNat ≤ n) : (a + 1).toNat ≤ n + 1 := by
    rw [Word.toNat_add_one (by omega)]
    omega
  exact ⟨h.nextContact.trans (by omega), hsucc h.nextSample, hsucc h.batchOrdinal,
    hsucc h.sequence, h.contact, h.contactLe⟩

theorem Counted.begun : Counted (n + 1) c.opened.advanced := by
  have hsucc {a : UInt64} (ha : a.toNat ≤ n) : (a + 1).toNat ≤ n + 1 := by
    rw [Word.toNat_add_one (by omega)]
    omega
  have hzero : ((0 : UInt64) + 1).toNat ≤ n + 1 := hsucc (Nat.zero_le n)
  exact ⟨hsucc h.nextContact, hsucc h.nextSample, hzero, hzero,
    fun _ => succ_ne_zero_of_le hn h.nextContact, le_rfl⟩

theorem Counted.translate (event : CapturedEvent) :
    Counted (n + 1) (c.translate event).1 := by
  have hsame : Counted (n + 1) c := h.mono (by omega)
  cases hk : event.kind with
  | DeviceObserved => simpa [Cursor.translate, hk] using hsame
  | Begin => simpa [Cursor.translate, hk] using h.begun hn
  | Update =>
    by_cases ho : c.contactOpen
    · simpa [Cursor.translate, hk, ho] using h.advanced hn
    · simpa [Cursor.translate, hk, ho] using hsame
  | End =>
    by_cases ho : c.contactOpen
    · simpa [Cursor.translate, hk, ho] using (h.advanced hn).closed
    · simpa [Cursor.translate, hk, ho] using hsame
  | Cancel =>
    by_cases ho : c.contactOpen
    · simpa [Cursor.translate, hk, ho] using hsame.closed
    · simpa [Cursor.translate, hk, ho] using hsame

end Step

namespace QueueModel

/-- Fewer events than a 64-bit counter can number. -/
def FewEvents (trace : List CoreEvent) (_ : QueueModel) : CoreOp → Prop
  | .submit _ => (eventsIn trace).length + 1 < 2 ^ 64
  | _ => True

theorem counted_calls :
    CallsPreserve FewEvents fun trace q => Counted (eventsIn trace).length q.cursor where
  accepted _ _ h := by simpa using h
  busy _ _ h := by simpa using h
  rejected _ _ h := by simpa using h.closed
  start _ h := by simpa using h.closed
  noted _ _ h := by simpa using h.mono (Nat.le_succ _)
  device _ _ _ h := by simpa using h.mono (Nat.le_succ _)
  queued {trace q event new} ha _ _ _ _ _ _ h := by simpa using h.translate ha event
  overflow {trace q event cursor mask} ha _ _ _ hcut h := by
    cases hcut with
    | inl hcut =>
      obtain ⟨rfl, -⟩ := hcut
      simpa using (h.mono (Nat.le_succ _)).closed
    | inr hcut =>
      obtain ⟨rfl, -⟩ := hcut
      simpa using (h.translate ha event).closed
  retried _ h := by simpa using h
  cancelled _ _ _ h := by simpa using h.closed
  closed _ _ h := by simpa using h.closed

end QueueModel

/-- Identities that were given when the cursor stood where it stands. -/
structure Within (c : Cursor) (d : Delivery) : Prop where
  sample : d.sample ≤ c.nextSample
  contact : d.contact ≤ c.nextContact

theorem Within.of_closed {c : Cursor} {d : Delivery} (h : Within c d) : Within c.closed d :=
  ⟨h.sample, h.contact⟩

theorem Newer.of_self {e d : Delivery} (h : Newer d d) : Newer e d :=
  ⟨fun hs => absurd (h.sample hs) (lt_irrefl _), fun hp => absurd (h.contact hp) (lt_irrefl _)⟩

theorem within_unslotted {c : Cursor} {d : Delivery} : Within c d.unslotted ↔ Within c d :=
  ⟨fun h => ⟨h.sample, h.contact⟩, fun h => ⟨h.sample, h.contact⟩⟩

theorem newer_unslotted {e d : Delivery} : Newer e.unslotted d.unslotted ↔ Newer e d :=
  ⟨fun h => ⟨h.sample, h.contact⟩, fun h => ⟨h.sample, h.contact⟩⟩

section Translated
variable {n : Nat} {c : Cursor} (h : Counted n c) (hn : n + 1 < 2 ^ 64)
include h hn

/-- The cursor only moves on. -/
theorem Within.translate {d : Delivery} (hd : Within c d) (event : CapturedEvent) :
    Within (c.translate event).1 d := by
  have hsample := (lt_succ_of_le hn h.nextSample).le
  have hcontact := (lt_succ_of_le hn h.nextContact).le
  have hadvanced : Within c.advanced d := ⟨hd.sample.trans hsample, hd.contact⟩
  cases hk : event.kind with
  | DeviceObserved => simpa [Cursor.translate, hk] using hd
  | Begin =>
    simp only [Cursor.translate, hk]
    exact ⟨hd.sample.trans hsample, hd.contact.trans hcontact⟩
  | Update =>
    by_cases ho : c.contactOpen
    · simpa [Cursor.translate, hk, ho] using hadvanced
    · simpa [Cursor.translate, hk, ho] using hd
  | End =>
    by_cases ho : c.contactOpen
    · simp only [Cursor.translate, hk, ho, if_true]
      exact ⟨hadvanced.sample, hadvanced.contact⟩
    · simpa [Cursor.translate, hk, ho] using hd
  | Cancel =>
    by_cases ho : c.contactOpen
    · simp only [Cursor.translate, hk, ho, if_true]
      exact ⟨hd.sample, hd.contact⟩
    · simpa [Cursor.translate, hk, ho] using hd

theorem within_of_mem_translate {event : CapturedEvent} {d : Delivery}
    (hd : d ∈ (c.translate event).2) : Within (c.translate event).1 d := by
  rcases Cursor.mem_translate hd with ⟨-, rfl⟩ | ⟨hk, ⟨hb, rfl⟩ | ⟨hb, ho, rfl⟩⟩
  · exact Within.translate h hn ⟨UInt64.zero_le, h.contactLe⟩ event
  · simp only [Cursor.translate, hb]
    exact ⟨le_rfl, le_rfl⟩
  · cases he : event.kind with
    | Begin => exact absurd he hb
    | Cancel => exact absurd he hk
    | DeviceObserved => simp [Cursor.translate, he] at hd
    | Update | End =>
      simp only [Cursor.translate, he, ho, if_true]
      exact ⟨le_rfl, h.contactLe⟩

/-- What an event yields is newer than everything before it. -/
theorem newer_of_mem_translate {event : CapturedEvent} {e d : Delivery} (he : Within c e)
    (hd : d ∈ (c.translate event).2) : Newer e d := by
  have hsample := he.sample.trans_lt (lt_succ_of_le hn h.nextSample)
  have hcontact := he.contact.trans_lt (lt_succ_of_le hn h.nextContact)
  rcases Cursor.mem_translate hd with ⟨-, rfl⟩ | ⟨hk, ⟨-, rfl⟩ | ⟨hb, -, rfl⟩⟩
  · exact ⟨fun hs => absurd rfl hs, by simp [Cursor.cancellation]⟩
  · exact ⟨fun _ => hsample, fun _ => hcontact⟩
  · refine ⟨fun _ => hsample, ?_⟩
    cases hkind : event.kind <;> simp_all [Cursor.point, AppleDeliveryCore.phaseOf]

theorem pairwise_newer_translate (event : CapturedEvent) :
    (c.translate event).2.Pairwise Newer := by
  have hcancel : Within c c.cancellation := ⟨UInt64.zero_le, h.contactLe⟩
  cases hk : event.kind <;> by_cases ho : c.contactOpen <;>
    simp only [Cursor.translate, hk, ho, if_true, if_false, Bool.false_eq_true, List.nil_append,
      List.pairwise_singleton, List.Pairwise.nil]
  have hbegin : c.opened.point .Begin event ∈ (c.translate event).2 := by
    simp [Cursor.translate, hk]
  exact List.pairwise_pair.mpr (newer_of_mem_translate h hn hcancel hbegin)

end Translated

namespace QueueModel

/-- Identities rise along the queue, above all that was offered, the refused delivery excepted. -/
structure Numbered (trace : List CoreEvent) (q : QueueModel) : Prop where
  head : RefusedAtHead trace q
  offered : ∀ d ∈ offersOf trace, Within q.cursor d
  pending : ∀ d ∈ q.pending, Within q.cursor d
  order : q.pending.Pairwise Newer
  fresh : ∀ d ∈ q.pending, refused trace = some d ∨ ∀ e ∈ offersOf trace, Newer e d
  offers : Always OffersNew trace

/-- When the queue is discarded nothing is left to number. -/
theorem Numbered.of_empty {trace : List CoreEvent} {q : QueueModel} (hq : q.pending = [])
    (hrefused : q.started → refused trace = none)
    (hoffered : ∀ d ∈ offersOf trace, Within q.cursor d)
    (hoffers : Always OffersNew trace) : Numbered trace q :=
  ⟨fun hs r hr => by simp [hrefused hs] at hr, hoffered, by simp [hq], by simp [hq],
    by simp [hq], hoffers⟩

/-- Behind the delivery at the head, nothing was offered before, and it is newer than the head. -/
theorem Numbered.behind_head {trace : List CoreEvent} {q : QueueModel} {d : Delivery}
    {rest : List Delivery} (h : Numbered trace q) (hs : q.started) (hq : q.pending = d :: rest)
    (mask : UInt16) (decision : DeliveryDecision) :
    ∀ r ∈ rest, ∀ e ∈ offersOf (trace ++ [.receive mask d decision]), Newer e r := by
  intro r hr e he
  have horder := h.order
  rw [hq, List.pairwise_cons] at horder
  have hnewer := horder.1 r hr
  rw [offersOf_append, List.mem_append] at he
  cases he with
  | inl he =>
    cases h.fresh r (by simp [hq, hr]) with
    | inl hrefused =>
      have hhead := h.head hs r hrefused
      rw [hq, List.head?_cons, Option.some.injEq] at hhead
      subst hhead
      exact hnewer.of_self
    | inr hfresh => exact hfresh e he
  | inr he =>
    obtain rfl : e = d := by simpa using he
    exact hnewer

theorem Numbered.offers_concat {trace : List CoreEvent} {q : QueueModel} {d : Delivery}
    (h : Numbered trace q) (hd : d ∈ q.pending) (mask : UInt16) (decision : DeliveryDecision) :
    Always OffersNew (trace ++ [.receive mask d decision]) :=
  (always_concat _ _).mpr ⟨h.offers, h.fresh d hd⟩

theorem Numbered.offered_concat {trace : List CoreEvent} {q : QueueModel} {d : Delivery}
    (h : Numbered trace q) (hd : d ∈ q.pending) (mask : UInt16) (decision : DeliveryDecision) :
    ∀ e ∈ offersOf (trace ++ [.receive mask d decision]), Within q.cursor e := by
  simpa [or_imp, forall_and] using ⟨h.offered, h.pending d hd⟩

/-- A call that only notes an event leaves all numbers as they are. -/
theorem Numbered.called {trace : List CoreEvent} {q : QueueModel} {op : CoreOp}
    (h : Numbered trace q) (hop : op ≠ .start) : Numbered (trace ++ [.called op]) q := by
  have hrefused := refused_append_called trace hop
  refine ⟨?_, by simpa using h.offered, h.pending, h.order, ?_,
    (always_concat _ _).mpr ⟨h.offers, trivial⟩⟩
  · simpa [RefusedAtHead, hrefused] using h.head
  · simpa [hrefused] using h.fresh

theorem numbered_calls : CallsPreserve
    (fun trace q op => FewEvents trace q op ∧ Counted (eventsIn trace).length q.cursor)
    Numbered where
  accepted {trace q d rest} hs hq h := by
    have hrest : ∀ r ∈ rest, r ∈ q.pending := by
      intro r hr
      simp [hq, hr]
    have horder := h.order
    rw [hq, List.pairwise_cons] at horder
    exact ⟨refusedAtHead_offers.accepted hs hq h.head, h.offered_concat (by simp [hq]) _ _,
      fun r hr => h.pending r (hrest r hr), horder.2,
      fun r hr => Or.inr (h.behind_head hs hq _ _ r hr), h.offers_concat (by simp [hq]) _ _⟩
  busy {trace q d rest} hs hq h := by
    refine ⟨refusedAtHead_offers.busy hs hq h.head, h.offered_concat (by simp [hq]) _ _,
      h.pending, h.order, ?_, h.offers_concat (by simp [hq]) _ _⟩
    intro r hr
    rw [hq, List.mem_cons] at hr
    cases hr with
    | inl heq =>
      subst heq
      exact Or.inl (by simp [refused])
    | inr hr => exact Or.inr (h.behind_head hs hq _ _ r hr)
  rejected {trace q d rest} hs hq h :=
    .of_empty rfl (by simp [refused])
      (fun e he => (h.offered_concat (by simp [hq]) _ _ e he).of_closed)
      (h.offers_concat (by simp [hq]) _ _)
  start {trace q} _ h :=
    .of_empty rfl (by simp [refused]) (by simpa using fun d hd => (h.offered d hd).of_closed)
      ((always_concat _ _).mpr ⟨h.offers, trivial⟩)
  noted _ _ h := h.called (by simp)
  device {trace q event} _ _ _ h := by
    have hc : Numbered (trace ++ [.called (.submit event)]) q := h.called (by simp)
    exact ⟨hc.head, hc.offered, hc.pending, hc.order, hc.fresh, hc.offers⟩
  queued {trace q event new} ha hs hk hnew hne hslot hroom h := by
    obtain ⟨hn, hcounted⟩ := ha
    have hc : Numbered (trace ++ [.called (.submit event)]) q := h.called (by simp)
    have hmem : ∀ d ∈ new, d.unslotted ∈ (q.cursor.translate event).2 := by
      intro d hd
      rw [← hnew]
      exact List.mem_map_of_mem hd
    have hnewer : ∀ e, Within q.cursor e → ∀ d ∈ new, Newer e d := by
      intro e he d hd
      rw [← newer_unslotted]
      exact newer_of_mem_translate hcounted hn (within_unslotted.mpr he) (hmem d hd)
    refine ⟨(refusedAtHead_calls FewEvents).queued hn hs hk hnew hne hslot hroom h.head, ?_, ?_,
      ?_, ?_, hc.offers⟩
    · exact fun d hd => (hc.offered d hd).translate hcounted hn event
    · intro d hd
      cases List.mem_append.mp hd with
      | inl hd => exact (h.pending d hd).translate hcounted hn event
      | inr hd => exact within_unslotted.mp (within_of_mem_translate hcounted hn (hmem d hd))
    · refine List.pairwise_append.mpr ⟨h.order, ?_, fun e he => hnewer e (h.pending e he)⟩
      have hpairs := pairwise_newer_translate hcounted hn event
      rw [← hnew, List.pairwise_map] at hpairs
      exact hpairs.imp newer_unslotted.mp
    · intro d hd
      cases List.mem_append.mp hd with
      | inl hd => exact hc.fresh d hd
      | inr hd => exact Or.inr fun e he => hnewer e (hc.offered e he) d hd
  overflow {trace q event cursor mask} ha _ _ _ hcut h := by
    obtain ⟨hn, hcounted⟩ := ha
    refine .of_empty rfl (by simp) ?_ (h.offers.append (by simp [OffersNew]))
    cases hcut with
    | inl hcut =>
      obtain ⟨rfl, -⟩ := hcut
      simpa using fun d hd => (h.offered d hd).of_closed
    | inr hcut =>
      obtain ⟨rfl, -⟩ := hcut
      simpa using fun d hd => ((h.offered d hd).translate hcounted hn event).of_closed
  retried _ h := h.called (by simp)
  cancelled {trace q decision} ha _ _ h := by
    have hcancel : Within q.cursor q.cursor.cancellation := ⟨UInt64.zero_le, ha.2.contactLe⟩
    refine .of_empty rfl (by simp) ?_ ?_
    · simpa [or_imp, forall_and] using
        ⟨fun d hd => (h.offered d hd).of_closed, hcancel.of_closed⟩
    · refine h.offers.append ?_
      simp only [List.mem_cons, List.not_mem_nil, or_false, forall_eq_or_imp, forall_eq, OffersNew,
        implies_true, true_and, and_true]
      exact fun before => Or.inr fun e _ =>
        ⟨fun hs => absurd rfl hs, by simp [Cursor.cancellation]⟩
  closed {trace q} _ _ h := by
    refine .of_empty rfl (by simp) ?_ (h.offers.append (by simp [OffersNew]))
    simpa using fun d hd => (h.offered d hd).of_closed

/-- In a run of few events no identity is given twice. -/
theorem offersNew_of_reaches {first q : QueueModel} {trace : List CoreEvent}
    (h : Reaches FewEvents first trace q) (hcounted : Counted 0 first.cursor)
    (hempty : first.pending = []) : Always OffersNew trace := by
  have hreach := h.strengthened counted_calls.preserves hcounted
  have hnumbered := hreach.invariant numbered_calls.preserves
    (.of_empty hempty (by simp [refused, lastOffer]) (by simp) always_nil)
  exact hnumbered.offers

end QueueModel
end LightPhi.Apple
