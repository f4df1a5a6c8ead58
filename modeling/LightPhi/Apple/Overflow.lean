import LightPhi.Apple.DeliveryOrder

/-! When an overflow is reported: behind a busy receiver, and in one case without one. -/
namespace LightPhi.Apple
open Base

/-- An overflow comes only while the most recent answer of the session is Busy. -/
def OverflowAfterBusy (before : List CoreEvent) : CoreEvent → Prop
  | .failed .Overflow => lastAnswer before = some .Busy
  | _ => True

instance (before : List CoreEvent) : ∀ event, Decidable (OverflowAfterBusy before event)
  | .failed .Overflow => inferInstanceAs (Decidable (lastAnswer before = some .Busy))
  | .called _ | .stopped | .receive _ _ _ => inferInstanceAs (Decidable True)

/-- A Begin cuts off the open contact while nothing waits, and the queue has room for one
delivery only: the cancellation takes it, and the Begin has none. -/
def CutsOffWithoutRoom (q : QueueModel) : CoreOp → Prop
  | .submit event => q.started ∧ q.cursor.contactOpen ∧ q.pending = [] ∧ q.capacity = 1 ∧
      event.kind = .Begin
  | _ => False

theorem lastAnswer_called (trace : List CoreEvent) {op : CoreOp} (h : op ≠ .start) :
    lastAnswer (trace ++ [.called op]) = lastAnswer trace := by
  simp [lastAnswer, h]

theorem lastAnswer_receive (trace : List CoreEvent) (mask : UInt16) (d : Delivery)
    (decision : DeliveryDecision) :
    lastAnswer (trace ++ [.receive mask d decision]) = some decision := by
  simp [lastAnswer]

/-- A last answer Busy is an answer about a delivery that was refused. -/
theorem refused_of_lastAnswer {trace : List CoreEvent} (h : lastAnswer trace = some .Busy) :
    ∃ d, refused trace = some d := by
  obtain ⟨⟨d, decision⟩, hlast, rfl⟩ := Option.map_eq_some_iff.mp h
  exact ⟨d, by simp [refused, hlast]⟩

namespace Cursor

theorem translate_length_le (c : Cursor) (event : CapturedEvent) :
    (c.translate event).2.length ≤ 2 := by
  cases hk : event.kind <;> by_cases ho : c.contactOpen <;> simp [translate, hk, ho]

/-- Only a Begin that cuts off an open contact yields two deliveries. -/
theorem translate_length_two {c : Cursor} {event : CapturedEvent}
    (h : 2 ≤ (c.translate event).2.length) : event.kind = .Begin ∧ c.contactOpen := by
  cases hk : event.kind <;> by_cases ho : c.contactOpen <;> simp [translate, hk, ho] at h ⊢

end Cursor

namespace QueueModel

/-- Between two calls, whatever waits was refused as busy. -/
def WaitsForBusy (trace : List CoreEvent) (q : QueueModel) : Prop :=
  q.started → q.pending ≠ [] → lastAnswer trace = some .Busy

theorem waitsForBusy_drains {q q' : QueueModel} {trace events : List CoreEvent}
    (h : Drains q events q') : WaitsForBusy (trace ++ events) q' := by
  induction h generalizing trace with
  | done hdone =>
    intro hs hp
    cases hdone with
    | inl hdone => simp [hdone] at hs
    | inr hdone => exact absurd hdone hp
  | accepted _ _ _ ih =>
    rw [List.append_cons]
    exact ih
  | busy => exact fun _ _ => lastAnswer_receive _ _ _ _
  | rejected => exact fun _ hp => absurd rfl hp

theorem waitsForBusy_of_empty {trace : List CoreEvent} {q : QueueModel} (h : q.pending = []) :
    WaitsForBusy trace q := fun _ hp => absurd h hp

theorem waitsForBusy_calls {q q' : QueueModel} {op : CoreOp} {trace events : List CoreEvent}
    (hc : Calls q op events q') (h : WaitsForBusy trace q) : WaitsForBusy (trace ++ events) q' := by
  cases hc with
  | start => exact waitsForBusy_of_empty rfl
  | ignored | device | stray => simpa [WaitsForBusy, lastAnswer] using h
  | queued _ _ _ _ _ _ hd =>
    rw [List.append_cons]
    exact waitsForBusy_drains hd
  | overflow => exact waitsForBusy_of_empty rfl
  | retried hd =>
    rw [List.append_cons]
    exact waitsForBusy_drains hd
  | cancelled => exact waitsForBusy_of_empty rfl
  | closed => exact waitsForBusy_of_empty rfl

theorem Drains.keeps_overflowAfterBusy {q q' : QueueModel} {trace events : List CoreEvent}
    (hd : Drains q events q') (h : Always OverflowAfterBusy trace) :
    Always OverflowAfterBusy (trace ++ events) := by
  induction hd generalizing trace with
  | done => simpa using h
  | accepted _ _ _ ih =>
    rw [List.append_cons]
    exact ih ((always_concat _ _).mpr ⟨h, trivial⟩)
  | busy => exact (always_concat _ _).mpr ⟨h, trivial⟩
  | rejected => exact (always_concat _ _).mpr ⟨h, trivial⟩

theorem Drains.capacity_eq {q q' : QueueModel} {events : List CoreEvent} (h : Drains q events q') :
    q'.capacity = q.capacity := by
  induction h with
  | accepted _ _ _ ih => exact ih
  | _ => rfl

theorem Calls.capacity_eq {q q' : QueueModel} {op : CoreOp} {events : List CoreEvent}
    (h : Calls q op events q') : q'.capacity = q.capacity := by
  cases h with
  | queued _ _ _ _ _ _ hd => exact hd.capacity_eq
  | retried hd => exact hd.capacity_eq
  | _ => rfl

/-- One call from a state in which whatever waits was refused. -/
theorem overflowAfterBusy_calls {q q' : QueueModel} {op : CoreOp} {trace events : List CoreEvent}
    (hpos : 0 < q.capacity) (hop : ¬ CutsOffWithoutRoom q op) (hc : Calls q op events q')
    (hw : WaitsForBusy trace q) (h : Always OverflowAfterBusy trace) :
    Always OverflowAfterBusy (trace ++ events) := by
  have hcall (op : CoreOp) : Always OverflowAfterBusy (trace ++ [.called op]) :=
    (always_concat _ _).mpr ⟨h, trivial⟩
  cases hc with
  | @overflow event _ _ hs _ hfull _ =>
    have hp : q.pending ≠ [] := by
      intro hp
      have hle := q.cursor.translate_length_le event
      rw [hp, List.length_nil] at hfull
      have htwo : 2 ≤ (q.cursor.translate event).2.length := by omega
      obtain ⟨hk, ho⟩ := Cursor.translate_length_two htwo
      exact hop ⟨hs, ho, hp, by omega, hk⟩
    rw [List.append_cons]
    refine (always_concat _ _).mpr ⟨hcall _, ?_⟩
    exact (lastAnswer_called trace (by simp)).trans (hw hs hp)
  | queued _ _ _ _ _ _ hd | retried hd =>
    rw [List.append_cons]
    exact hd.keeps_overflowAfterBusy (hcall _)
  | cancelled | closed => exact h.append (by simp [OverflowAfterBusy])
  | _ => exact hcall _

/-- As long as no Begin cuts off a contact without room, overflows follow busy answers. -/
theorem overflowAfterBusy_preserves {capacity : Nat} (hpos : 0 < capacity) :
    Base.Preserves Calls (fun _ q op => ¬ CutsOffWithoutRoom q op) fun trace q =>
      WaitsForBusy trace q ∧ q.capacity = capacity ∧ Always OverflowAfterBusy trace := by
  intro trace q op events q' hop hc hall
  obtain ⟨hw, rfl, h⟩ := hall
  exact ⟨waitsForBusy_calls hc hw, hc.capacity_eq, overflowAfterBusy_calls hpos hop hc hw h⟩

/-- A Begin that cuts off a contact without room reports an overflow, and no Busy came before. -/
theorem Calls.of_cutsOffWithoutRoom {q q' : QueueModel} {op : CoreOp}
    {trace events : List CoreEvent} (hop : CutsOffWithoutRoom q op) (hc : Calls q op events q')
    (hhead : RefusedAtHead trace q) : ¬ Always OverflowAfterBusy (trace ++ events) := by
  cases op with
  | start | retryPending | stop => exact absurd hop id
  | submit event =>
  obtain ⟨hs, ho, hp, hcap, hk⟩ := hop
  have htwo : (q.cursor.translate event).2.length = 2 := by
    simp [Cursor.translate, hk, ho]
  cases hc with
  | ignored h => simp [hs] at h
  | device _ h => simp [hk] at h
  | stray _ _ h => simp [h] at htwo
  | queued _ _ hnew _ _ hroom _ =>
    have hlength := congrArg List.length hnew
    rw [List.length_map, htwo] at hlength
    omega
  | overflow =>
    intro h
    rw [List.append_cons] at h
    have hbusy : lastAnswer (trace ++ [.called (.submit event)]) = some .Busy :=
      ((always_concat _ _).mp h).2
    rw [lastAnswer_called _ (by simp)] at hbusy
    obtain ⟨d, hd⟩ := refused_of_lastAnswer hbusy
    simpa [hp] using hhead hs d hd

end QueueModel

namespace Session
variable {τ : Type*} [IDeliveryTarget τ]

/-- Overflow is reported only behind a busy receiver, in all runs except those where some Begin
cuts off the open contact while nothing waits in a queue of capacity one. -/
theorem overflow_after_busy_iff {queueCapacity : UInt32} (hpos : 0 < queueCapacity)
    (hbound : queueCapacity.toNat ≤ 1024) (target : τ) (ops : List CoreOp) :
    Always OverflowAfterBusy (run queueCapacity target ops).target.trace ↔
      Always (fun before op => ¬ CutsOffWithoutRoom (run queueCapacity target before).core.model op)
        ops := by
  have hbound : queueCapacity.toNat ≤ 2 ^ 31 := by omega
  constructor
  · intro h before op after heq hop
    subst heq
    obtain ⟨hreach, -, hwf⟩ := run_refines hpos hbound target (fun _ _ _ => True) before
      fun _ _ _ _ => trivial
    have hhead := hreach.invariant (QueueModel.refusedAtHead_calls _).preserves
      (QueueModel.refusedAtHead_of_unrefused _ rfl)
    obtain ⟨events, hcall, htrace, hwf'⟩ := perform_refines hwf op
    obtain ⟨-, hmore, -⟩ := runFrom_refines hwf' (fun _ _ _ => True) after fun _ _ _ _ => trivial
    have hrun : run queueCapacity target (before ++ op :: after) =
        after.foldl perform ((run queueCapacity target before).perform op) := by
      simp [run]
    rw [hrun, hmore, htrace] at h
    exact hcall.of_cutsOffWithoutRoom hop hhead h.of_append
  · intro h
    obtain ⟨hreach, -, -⟩ := run_refines hpos hbound target
      (fun _ q op => ¬ CutsOffWithoutRoom q op) ops h
    have hpos' : 0 < queueCapacity.toNat := by simpa [UInt32.lt_iff_toNat_lt] using hpos
    exact (hreach.invariant (QueueModel.overflowAfterBusy_preserves hpos')
      ⟨QueueModel.waitsForBusy_of_empty rfl, rfl, always_nil⟩).2.2

/-- Two contacts, the second one before the first has ended. -/
def twoBegins : List CoreOp :=
  [.start, .submit (plainEvent .Begin), .submit (plainEvent .Begin)]

theorem overflow_after_busy_two :
    Always OverflowAfterBusy (run 2 (Script.always .Accepted) twoBegins).target.trace ↔
      Always (fun before op =>
        ¬ CutsOffWithoutRoom (run 2 (Script.always .Accepted) before).core.model op) twoBegins :=
  overflow_after_busy_iff (by decide) (by decide) _ _

/-- Two Begins into a queue of one overflow it, though the only answer was Accepted. -/
theorem overflow_without_busy :
    ¬ Always OverflowAfterBusy (run 1 (Script.always .Accepted) twoBegins).target.trace := by
  decide +kernel

end Session
end LightPhi.Apple
