import LightPhi.Apple.Refinement
import LightPhi.Base.Word

/-! Which contact Stop cancels. It goes by the contact being captured; the target knows only what
it accepted, and the queue lies between the two. -/
namespace LightPhi.Apple
open Base

/-- A contact the target has seen open, with the ordinals it accepted in it. -/
structure SeenContact where
  contact : UInt64
  ordinals : List UInt64
  deriving DecidableEq

def SeenContact.accept (seen : Option SeenContact) (d : Delivery) : Option SeenContact :=
  match d.phase with
  | .Begin => some { contact := d.contact, ordinals := [d.batchOrdinal] }
  | .Update => seen.map fun s =>
    if s.contact = d.contact then { s with ordinals := s.ordinals ++ [d.batchOrdinal] } else s
  | .End | .Cancel => seen.filter fun s => s.contact != d.contact

def SeenContact.observe (seen : Option SeenContact) : CoreEvent → Option SeenContact
  | .receive _ d .Accepted => accept seen d
  | .receive _ _ .Busy => seen
  | .receive _ _ .Rejected | .called .start | .called .stop | .failed _ => none
  | .called (.submit _) | .called .retryPending | .stopped => seen

/-- The contact that is open to the target: it accepted the Begin, and since then neither an End
nor a Cancel of it, nor did it reject anything, nor did the session end. -/
def seenContact (trace : List CoreEvent) : Option SeenContact :=
  trace.foldl SeenContact.observe none

/-- One delivery: an empty Cancel of the contact, numbered behind all that was accepted in it. -/
def ClosesContact (seen : SeenContact) : List Delivery → Prop
  | [d] => d.phase = .Cancel ∧ d.sample = 0 ∧ d.contact = seen.contact ∧
      ∀ ordinal ∈ seen.ordinals, ordinal < d.batchOrdinal
  | _ => False

def ClosesSeen : Option SeenContact → List Delivery → Prop
  | some seen, offers => ClosesContact seen offers
  | none, offers => offers = []

instance (seen : SeenContact) : ∀ offers, Decidable (ClosesContact seen offers)
  | [d] => inferInstanceAs (Decidable (d.phase = .Cancel ∧ d.sample = 0 ∧
      d.contact = seen.contact ∧ ∀ ordinal ∈ seen.ordinals, ordinal < d.batchOrdinal))
  | [] | _ :: _ :: _ => inferInstanceAs (Decidable False)

instance : ∀ seen offers, Decidable (ClosesSeen seen offers)
  | some seen, offers => inferInstanceAs (Decidable (ClosesContact seen offers))
  | none, offers => inferInstanceAs (Decidable (offers = []))

def DeliveryPhase.closes (phase : DeliveryPhase) : Bool := phase == .End || phase == .Cancel

/-- Nothing that waits opens or closes a contact, or it begins one and ends with none open; and
the ordinals of the open contact have not run out. -/
def QueueKeepsContact (seen : Option SeenContact) (pending : List Delivery) : Prop :=
  (∀ d ∈ pending, d.phase = .Update) ∧
      (seen.map (·.ordinals.length)).getD 0 + pending.length + 1 < 2 ^ 64 ∨
    (∃ d ∈ pending.head?, d.phase = .Begin) ∧ ∃ d ∈ pending.getLast?, d.phase.closes

/-- How far the contacts of a session have got: the latest one, and how many deliveries it has
while it is open. -/
structure Stage where
  latest : UInt64
  deliveries : Option Nat

namespace Stage

/-- The next delivery of a session, and the stage it leads to. -/
inductive Follows : Stage → Delivery → Stage → Prop
  | opening {latest d} (hp : d.phase = .Begin) (hc : d.contact = latest + 1)
      (ho : d.batchOrdinal = 1) : Follows ⟨latest, none⟩ d ⟨latest + 1, some 1⟩
  | updating {latest n d} (hp : d.phase = .Update) (hc : d.contact = latest)
      (ho : d.batchOrdinal = UInt64.ofNat (n + 1)) :
      Follows ⟨latest, some n⟩ d ⟨latest, some (n + 1)⟩
  | closing {latest n d} (hp : d.phase.closes) (hc : d.contact = latest) :
      Follows ⟨latest, some n⟩ d ⟨latest, none⟩

inductive Leads : Stage → List Delivery → Stage → Prop
  | nil (a) : Leads a [] a
  | cons {a b c d ds} (h : Follows a d b) (hrest : Leads b ds c) : Leads a (d :: ds) c

theorem Leads.append {a b c : Stage} {ds es : List Delivery} (h : Leads a ds b)
    (h' : Leads b es c) : Leads a (ds ++ es) c := by
  induction h with
  | nil => exact h'
  | cons hd _ ih => exact .cons hd (ih h')

theorem Leads.of_unslotted {a b : Stage} {ds : List Delivery}
    (h : Leads a (ds.map Delivery.unslotted) b) : Leads a ds b := by
  induction ds generalizing a with
  | nil => exact h
  | cons d ds ih =>
    cases h with
    | cons hd hrest =>
      refine .cons ?_ (ih hrest)
      cases hd with
      | opening hp hc ho => exact .opening hp hc ho
      | updating hp hc ho => exact .updating hp hc ho
      | closing hp hc => exact .closing hp hc

/-- What the target has seen when it has accepted everything up to a stage. -/
def seen (a : Stage) : Option SeenContact :=
  a.deliveries.map fun n =>
    { contact := a.latest, ordinals := (List.range n).map fun i => UInt64.ofNat (i + 1) }

theorem Follows.accept {a b : Stage} {d : Delivery} (h : Follows a d b) :
    SeenContact.accept a.seen d = b.seen := by
  cases h with
  | opening hp hc ho => simp [SeenContact.accept, hp, hc, ho, seen]
  | updating hp hc ho => simp [SeenContact.accept, hp, hc, ho, seen, List.range_succ]
  | closing hp hc =>
    have hp : d.phase = .End ∨ d.phase = .Cancel := by simpa [DeliveryPhase.closes] using hp
    rcases hp with hp | hp <;> simp [SeenContact.accept, hp, hc, seen]

/-- A stage is the one the capturing side is in. -/
structure At (a : Stage) (c : Cursor) : Prop where
  latest : a.latest = c.nextContact
  closed : a.deliveries = none → c.contactOpen = false
  opened : ∀ n, a.deliveries = some n →
    c.contactOpen ∧ c.contact = c.nextContact ∧ c.batchOrdinal = UInt64.ofNat n

theorem at_closed (c : Cursor) : At ⟨c.nextContact, none⟩ c.closed :=
  ⟨rfl, fun _ => rfl, by simp⟩

theorem ofNat_succ (n : Nat) : UInt64.ofNat n + 1 = UInt64.ofNat (n + 1) := by
  simp

theorem At.deliveries_none {a : Stage} {c : Cursor} (h : a.At c) (ho : c.contactOpen = false) :
    a = ⟨c.nextContact, none⟩ := by
  obtain ⟨latest, deliveries⟩ := a
  obtain rfl : latest = c.nextContact := h.latest
  cases deliveries with
  | none => rfl
  | some n => exact absurd (h.opened n rfl).1 (by simp [ho])

theorem At.deliveries_some {a : Stage} {c : Cursor} (h : a.At c) (ho : c.contactOpen) :
    ∃ n, a = ⟨c.contact, some n⟩ ∧ c.contact = c.nextContact ∧
      c.batchOrdinal = UInt64.ofNat n := by
  obtain ⟨latest, deliveries⟩ := a
  obtain rfl : latest = c.nextContact := h.latest
  cases deliveries with
  | none => simp [h.closed rfl] at ho
  | some n =>
    obtain ⟨-, hc, hn⟩ := h.opened n rfl
    exact ⟨n, by rw [hc], hc, hn⟩

/-- The cancellation of the open contact closes it. -/
theorem At.cancellation {a : Stage} {c : Cursor} (h : a.At c) (ho : c.contactOpen) :
    Follows a c.cancellation ⟨c.nextContact, none⟩ := by
  obtain ⟨n, rfl, hc, -⟩ := h.deliveries_some ho
  rw [← hc]
  exact .closing rfl rfl

theorem follows_begin (c : Cursor) (event : CapturedEvent) :
    Follows ⟨c.nextContact, none⟩ (c.opened.point .Begin event) ⟨c.nextContact + 1, some 1⟩ :=
  .opening rfl rfl rfl

theorem at_begin (c : Cursor) : At ⟨c.nextContact + 1, some 1⟩ c.opened.advanced :=
  ⟨rfl, by simp, by rintro n ⟨⟩; exact ⟨rfl, rfl, rfl⟩⟩

/-- The deliveries of an event lead from the stage before it to the stage after it. -/
theorem At.translate {a : Stage} {c : Cursor} (h : a.At c) (event : CapturedEvent) :
    ∃ b, Leads a (c.translate event).2 b ∧ b.At (c.translate event).1 := by
  by_cases ho : c.contactOpen
  · have hcancel := h.cancellation ho
    obtain ⟨n, rfl, hc, hn⟩ := h.deliveries_some ho
    have hordinal : c.batchOrdinal + 1 = UInt64.ofNat (n + 1) := by rw [hn, ofNat_succ]
    cases hk : event.kind with
    | DeviceObserved =>
      refine ⟨_, ?_, by simpa [Cursor.translate, hk] using h⟩
      simpa [Cursor.translate, hk] using .nil _
    | Begin =>
      refine ⟨_, ?_, by simpa [Cursor.translate, hk] using at_begin c⟩
      simpa [Cursor.translate, hk, ho] using .cons hcancel (.cons (follows_begin c event) (.nil _))
    | Update =>
      refine ⟨⟨c.contact, some (n + 1)⟩, ?_, ?_⟩
      · simpa [Cursor.translate, hk, ho] using .cons (.updating rfl rfl hordinal) (.nil _)
      · simp only [Cursor.translate, hk, ho, if_true]
        exact ⟨hc, by simp, by rintro m ⟨⟩; exact ⟨ho, hc, hordinal⟩⟩
    | End =>
      refine ⟨⟨c.contact, none⟩, ?_, ?_⟩
      · simpa [Cursor.translate, hk, ho] using .cons (.closing rfl rfl) (.nil _)
      · have hclosed : At ⟨c.nextContact, none⟩ c.advanced.closed := at_closed c.advanced
        simpa [Cursor.translate, hk, ho, hc] using hclosed
    | Cancel =>
      refine ⟨_, ?_, by simpa [Cursor.translate, hk, ho] using at_closed c⟩
      simpa [Cursor.translate, hk, ho] using .cons hcancel (.nil _)
  · have ho : c.contactOpen = false := by simpa using ho
    obtain rfl := h.deliveries_none ho
    cases hk : event.kind with
    | Begin =>
      refine ⟨_, ?_, by simpa [Cursor.translate, hk] using at_begin c⟩
      simpa [Cursor.translate, hk, ho] using .cons (follows_begin c event) (.nil _)
    | DeviceObserved | Update | End | Cancel =>
      refine ⟨_, ?_, by simpa [Cursor.translate, hk, ho] using h⟩
      simpa [Cursor.translate, hk, ho] using .nil _

/-! What a queue that leads from one stage to another looks like. -/

section Leads
variable {a b : Stage} {ds : List Delivery}

/-- Only Begins change the latest contact. -/
theorem Leads.latest (h : Leads a ds b) :
    b.latest = a.latest + UInt64.ofNat (ds.countP fun d => d.phase = .Begin) := by
  induction h with
  | nil => simp
  | @cons a b c d ds hd _ ih =>
    rw [ih]
    cases hd with
    | opening hp => simp [hp, UInt64.add_assoc, UInt64.add_comm]
    | updating hp => simp [hp]
    | closing hp =>
      have hp : d.phase ≠ .Begin := by
        intro he
        simp [he, DeliveryPhase.closes] at hp
      simp [hp]

theorem Leads.of_updates {n : Nat} (h : Leads a ds b) (ha : a.deliveries = some n)
    (hds : ∀ d ∈ ds, d.phase = .Update) : b = ⟨a.latest, some (n + ds.length)⟩ := by
  induction h generalizing n with
  | nil a =>
    obtain ⟨latest, deliveries⟩ := a
    simpa using ha
  | @cons a b c d ds hd _ ih =>
    have hu : d.phase = .Update := hds d (by simp)
    cases hd with
    | opening hp => simp [hu] at hp
    | closing hp => simp [hu, DeliveryPhase.closes] at hp
    | updating _ _ _ =>
      obtain rfl := Option.some.inj ha
      rw [ih rfl fun d hd => hds d (List.mem_cons_of_mem _ hd)]
      simp only [List.length_cons, Stage.mk.injEq, true_and, Option.some.injEq]
      omega

/-- Without an open contact a queue starts with a Begin. -/
theorem Leads.head_begin (h : Leads a ds b) (hne : ds ≠ []) :
    (∃ d ∈ ds.head?, d.phase = .Begin) ↔ a.deliveries = none := by
  cases h with
  | nil => exact absurd rfl hne
  | cons hd _ =>
    cases hd with
    | opening hp => simp [hp]
    | updating hp => simp [hp]
    | closing hp =>
      simp only [List.head?_cons, Option.mem_def, Option.some.injEq, exists_eq_left', reduceCtorEq,
        iff_false]
      intro he
      simp [he, DeliveryPhase.closes] at hp

/-- A queue leaves no contact open when it ends with an End or a Cancel. -/
theorem Leads.last_closes (h : Leads a ds b) (hne : ds ≠ []) :
    (∃ d ∈ ds.getLast?, d.phase.closes) ↔ b.deliveries = none := by
  induction h with
  | nil => exact absurd rfl hne
  | @cons a b c d ds hd hrest ih =>
    cases ds with
    | nil =>
      cases hrest
      cases hd with
      | opening hp => simp [hp, DeliveryPhase.closes]
      | updating hp => simp [hp, DeliveryPhase.closes]
      | closing hp => simp [hp]
    | cons e ds => simpa using ih (by simp)

/-- From one open contact to another without a Begin there are only Updates between. -/
theorem Leads.updates_of_countP (h : Leads a ds b) (ha : a.deliveries ≠ none)
    (hb : b.deliveries ≠ none) (hcount : ds.countP (fun d => d.phase = .Begin) = 0) :
    ∀ d ∈ ds, d.phase = .Update := by
  induction h with
  | nil => simp
  | @cons a b c d ds hd hrest ih =>
    rw [List.countP_eq_zero] at hcount ih
    cases hd with
    | opening => exact absurd rfl ha
    | updating hp =>
      rw [List.forall_mem_cons]
      exact ⟨hp, ih (by simp) hb fun d hd => hcount d (List.mem_cons_of_mem _ hd)⟩
    | closing =>
      cases hrest with
      | nil => exact absurd rfl hb
      | @cons _ _ _ e _ he _ =>
        cases he with
        | opening hp => exact absurd hp (by simpa using hcount e (by simp))

end Leads
end Stage

/-- A number behind the ordinals accepted and queued exists exactly while none of them wraps. -/
theorem ordinals_lt_iff {n m : Nat} (hn : 0 < n) (hm : m < 2 ^ 32) :
    (∀ ordinal ∈ (List.range n).map fun i => UInt64.ofNat (i + 1),
      ordinal < UInt64.ofNat (n + m + 1)) ↔ n + m + 1 < 2 ^ 64 := by
  simp only [List.mem_map, List.mem_range, forall_exists_index, and_imp, forall_apply_eq_imp_iff₂]
  constructor
  · intro h
    by_contra hwrap
    cases Nat.lt_or_ge n (2 ^ 64 - 1) with
    | inl hlt =>
      have hlast := h (n - 1) (by omega)
      rw [UInt64.lt_iff_toNat_lt, Word.toNat_ofNat_lt (by omega)] at hlast
      simp only [UInt64.toNat_ofNat'] at hlast
      omega
    | inr hge =>
      have hmax := h (2 ^ 64 - 2) (by omega)
      rw [UInt64.lt_iff_toNat_lt, Word.toNat_ofNat_lt (by omega)] at hmax
      have := (UInt64.ofNat (n + m + 1)).toNat_lt
      omega
  · intro h i hi
    exact Word.ofNat_lt_ofNat (by omega) h

/-- What Stop offers from a cursor. -/
def stopOffers (c : Cursor) : List Delivery := if c.contactOpen then [c.cancellation] else []

section Closes
variable {a b : Stage} {pending : List Delivery} {c : Cursor}

theorem closesSeen_none (h : Stage.Leads a pending b) (hb : b.At c) (ha : a.deliveries = none) :
    ClosesSeen a.seen (stopOffers c) ↔ QueueKeepsContact a.seen pending := by
  have hseen : a.seen = none := by simp [Stage.seen, ha]
  have hoffers : stopOffers c = [] ↔ b.deliveries = none := by
    cases hd : b.deliveries with
    | none => simp [stopOffers, hb.closed hd]
    | some n => simp [stopOffers, (hb.opened n hd).1]
  rw [hseen, ClosesSeen, hoffers, QueueKeepsContact]
  by_cases hne : pending = []
  · subst hne
    cases h
    simp [ha]
  · have hhead := (h.head_begin hne).mpr ha
    rw [← h.last_closes hne]
    constructor
    · exact fun hlast => Or.inr ⟨hhead, hlast⟩
    · rintro (⟨hupdates, -⟩ | ⟨-, hlast⟩)
      · obtain ⟨d, hd, hphase⟩ := hhead
        have hu := hupdates d (List.mem_of_head? hd)
        simp [hphase] at hu
      · exact hlast

theorem closesSeen_some {n : Nat} (h : Stage.Leads a pending b) (hb : b.At c)
    (ha : a.deliveries = some n) (hn : 0 < n) (hlength : pending.length < 2 ^ 32) :
    ClosesSeen a.seen (stopOffers c) ↔ QueueKeepsContact a.seen pending := by
  have hseen : a.seen = some
      ⟨a.latest, (List.range n).map fun i => UInt64.ofNat (i + 1)⟩ := by
    simp [Stage.seen, ha]
  have hhead : ¬ ∃ d ∈ pending.head?, d.phase = .Begin := by
    by_cases hne : pending = []
    · simp [hne]
    · rw [h.head_begin hne, ha]
      simp
  rw [hseen, ClosesSeen, QueueKeepsContact, or_iff_left (fun hr => hhead hr.1)]
  by_cases hupdates : ∀ d ∈ pending, d.phase = .Update
  · obtain rfl := h.of_updates ha hupdates
    obtain ⟨ho, hc, hordinal⟩ := hb.opened _ rfl
    have hcontact : c.contact = a.latest := hc.trans hb.latest.symm
    have hlast : c.batchOrdinal + 1 = UInt64.ofNat (n + pending.length + 1) := by
      rw [hordinal, Stage.ofNat_succ]
    simp only [stopOffers, ho, if_true, ClosesContact, Cursor.cancellation, hcontact, hlast,
      true_and, ordinals_lt_iff hn hlength]
    simpa using fun _ => hupdates
  · simp only [hupdates, false_and, iff_false]
    by_cases ho : c.contactOpen
    · have hopen : b.deliveries ≠ none := fun hd => by simp [hb.closed hd] at ho
      have hcount : pending.countP (fun d => d.phase = .Begin) ≠ 0 :=
        fun h0 => hupdates (h.updates_of_countP (by simp [ha]) hopen h0)
      have hle : pending.countP (fun d => d.phase = .Begin) ≤ pending.length :=
        List.countP_le_length
      obtain ⟨m, hm⟩ := Option.ne_none_iff_exists'.mp hopen
      obtain ⟨-, hc, -⟩ := hb.opened m hm
      have hcontact : c.contact ≠ a.latest := by
        rw [hc, ← hb.latest, h.latest]
        intro he
        have hzero : UInt64.ofNat (pending.countP fun d => d.phase = .Begin) = 0 := by
          simpa using he
        exact Word.ofNat_ne_zero (by omega) (by omega) hzero
      simp [stopOffers, ho, ClosesContact, Cursor.cancellation, hcontact]
    · simp [stopOffers, ho, ClosesContact]

end Closes

theorem seenContact_concat (trace : List CoreEvent) (event : CoreEvent) :
    seenContact (trace ++ [event]) = SeenContact.observe (seenContact trace) event := by
  simp [seenContact]

namespace QueueModel

/-- What the target has seen leads through the queue to what is being captured. -/
structure Staged (trace : List CoreEvent) (q : QueueModel) : Prop where
  stages : ∃ a b : Stage, seenContact trace = a.seen ∧ (∀ n, a.deliveries = some n → 0 < n) ∧
    Stage.Leads a q.pending b ∧ b.At q.cursor
  started : q.cursor.contactOpen → q.started

theorem Staged.of_closed {trace : List CoreEvent} {q : QueueModel} {c : Cursor}
    (hseen : seenContact trace = none) (hq : q.pending = []) (hc : q.cursor = c.closed) :
    Staged trace q := by
  refine ⟨⟨⟨c.nextContact, none⟩, ⟨c.nextContact, none⟩, hseen, by simp, ?_, ?_⟩, ?_⟩
  · rw [hq]
    exact .nil _
  · rw [hc]
    exact Stage.at_closed c
  · simp [hc, Cursor.closed]

/-- What the target sees of a call without an offer changes nothing. -/
theorem Staged.noted {trace : List CoreEvent} {q : QueueModel} {event : CoreEvent}
    (h : Staged trace q)
    (he : SeenContact.observe (seenContact trace) event = seenContact trace) :
    Staged (trace ++ [event]) q := by
  obtain ⟨⟨a, b, hseen, hrest⟩, hs⟩ := h
  exact ⟨⟨a, b, by rw [seenContact_concat, he, hseen], hrest⟩, hs⟩

theorem staged_calls (allowed : List CoreEvent → QueueModel → CoreOp → Prop) :
    CallsPreserve allowed Staged where
  accepted {trace q d rest} hs hq h := by
    obtain ⟨a, b, hseen, -, hleads, hat⟩ := h.stages
    rw [hq] at hleads
    obtain _ | ⟨hd, hrest⟩ := hleads
    refine ⟨⟨_, b, ?_, ?_, hrest, hat⟩, fun _ => hs⟩
    · rw [seenContact_concat, hseen]
      exact hd.accept
    · intro n hn
      cases hd with
      | opening => simp at hn; omega
      | updating => simp at hn; omega
      | closing => simp at hn
  busy _ _ h := h.noted rfl
  rejected {trace q d rest} _ _ _ :=
    .of_closed (c := q.cursor) (by rw [seenContact_concat]; rfl) rfl rfl
  start {trace q} _ _ := .of_closed (c := q.cursor) (by rw [seenContact_concat]; rfl) rfl rfl
  noted _ _ h := h.noted rfl
  device {trace q event} _ _ _ h := by
    have hn : Staged (trace ++ [.called (.submit event)]) q := h.noted rfl
    exact ⟨hn.stages, hn.started⟩
  queued {trace q event new} _ hs _ hnew _ _ _ h := by
    obtain ⟨a, b, hseen, hpos, hleads, hat⟩ := h.stages
    obtain ⟨b', hleads', hat'⟩ := hat.translate event
    rw [← hnew] at hleads'
    refine ⟨⟨a, b', ?_, hpos, hleads.append hleads'.of_unslotted, hat'⟩, fun _ => hs⟩
    rw [seenContact_concat, hseen]
    rfl
  overflow {trace q event cursor mask} _ _ _ _ _ _ := by
    refine .of_closed (c := cursor) ?_ rfl rfl
    rw [List.append_cons, seenContact_concat]
    rfl
  retried _ h := h.noted rfl
  cancelled {trace q decision} _ _ _ _ := by
    refine .of_closed (c := q.cursor) ?_ rfl rfl
    rw [List.append_cons, List.append_cons (trace ++ _), seenContact_concat, seenContact_concat,
      seenContact_concat]
    cases decision <;> rfl
  closed {trace q} _ _ _ := by
    refine .of_closed (c := q.cursor) ?_ rfl rfl
    rw [List.append_cons, seenContact_concat, seenContact_concat]
    rfl

/-- Stop offers the cancellation of the contact being captured, and nothing else. -/
theorem Calls.offersOf_stop {trace events : List CoreEvent} {q q' : QueueModel}
    (h : Calls q .stop events q') (hstaged : Staged trace q) :
    offersOf events = stopOffers q.cursor := by
  cases h with
  | cancelled _ ho =>
    rw [stopOffers, if_pos ho]
    rfl
  | closed hc =>
    have ho : q.cursor.contactOpen = false := by
      by_contra ho
      have ho : q.cursor.contactOpen = true := by simpa using ho
      exact hc ⟨hstaged.started ho, ho⟩
    rw [stopOffers, ho]
    rfl

end QueueModel

namespace Session
variable {τ : Type*} [IDeliveryTarget τ]

/-- What Stop offers closes exactly the contact that is open to the target. -/
def StopClosesSeen (s : Session (Recorded τ)) : Prop :=
  ClosesSeen (seenContact s.target.trace) (offersOf (sessionTrace s (s.perform .stop)))

instance (s : Session (Recorded τ)) : Decidable (StopClosesSeen s) :=
  inferInstanceAs (Decidable (ClosesSeen _ _))

/-- In every state a run reaches, Stop closes exactly the contact its target has seen open if and
only if nothing that waits opens or closes a contact, or what waits begins one and ends with none
open. -/
theorem stop_closes_seen_iff {queueCapacity : UInt32} (hpos : 0 < queueCapacity)
    (hbound : queueCapacity.toNat ≤ 2 ^ 31) (target : τ) (ops : List CoreOp) :
    StopClosesSeen (run queueCapacity target ops) ↔
      QueueKeepsContact (seenContact (run queueCapacity target ops).target.trace)
        (run queueCapacity target ops).core.pending := by
  obtain ⟨hreach, -, hwf⟩ := run_refines hpos hbound target (fun _ _ _ => True) ops
    fun _ _ _ _ => trivial
  have hstaged := hreach.invariant (QueueModel.staged_calls _).preserves
    (.of_closed (c := {}) rfl rfl rfl)
  obtain ⟨events, hcall, htrace, -⟩ := perform_refines hwf .stop
  have hlength : (run queueCapacity target ops).core.pending.length < 2 ^ 32 := by
    have := hwf.size
    have := hwf.bound
    rw [AppleDeliveryCore.pending_length]
    omega
  obtain ⟨a, b, hseen, hpositive, hleads, hat⟩ := hstaged.stages
  rw [StopClosesSeen, sessionTrace, htrace, List.drop_left, hcall.offersOf_stop hstaged, hseen]
  cases ha : a.deliveries with
  | none => exact closesSeen_none hleads hat ha
  | some n => exact closesSeen_some hleads hat ha (hpositive n ha) hlength

/-- A Begin the target could not take, and the Stop after it. -/
def refusedBegin : List CoreOp := [.start, .submit (plainEvent .Begin)]

theorem stop_closes_seen_accepted :
    StopClosesSeen (run 1 (Script.always .Accepted) refusedBegin) ↔
      QueueKeepsContact (seenContact (run 1 (Script.always .Accepted) refusedBegin).target.trace)
        (run 1 (Script.always .Accepted) refusedBegin).core.pending :=
  stop_closes_seen_iff (by decide) (by decide) _ _

/-- Stop cancels a contact whose Begin the target never accepted. -/
theorem stop_closes_unseen : ¬ StopClosesSeen (run 1 (Script.always .Busy) refusedBegin) := by
  decide +kernel

end Session
end LightPhi.Apple
