import LightPhi.Apple.DeliveryCore
import Mathlib.Logic.Relation

/-! What a call to the core can do to its target: offer it deliveries, or report one failure and
nothing else. -/
namespace LightPhi.Apple
open Base

section Offers
variable {τ : Type*} [IDeliveryTarget τ]

/-- One offer, whatever is offered and however it is answered. -/
inductive Offered : τ → τ → Prop
  | offer (core : AppleDeliveryCore) (d : Delivery) (target : τ) :
      Offered target (IDeliveryTarget.receive core d target).2

/-- Any number of offers. -/
abbrev Offers : τ → τ → Prop := Relation.ReflTransGen Offered

/-- What every single offer keeps, any number of them keeps. -/
theorem Offers.preserves {target target' : τ} (h : Offers target target') (inv : τ → Prop)
    (hoffer : ∀ core d target, inv target → inv (IDeliveryTarget.receive core d target).2)
    (hinv : inv target) : inv target' := by
  induction h with
  | refl => exact hinv
  | tail _ hlast ih =>
    obtain ⟨core, d, _⟩ := hlast
    exact hoffer core d _ ih

end Offers

namespace Session
open AppleDeliveryCore
variable {τ : Type*} [IDeliveryTarget τ]

theorem drainFrom_offers (turns : Nat) (s : Session τ) :
    Offers s.target (s.drainFrom turns).target ∧
      (s.drainFrom turns).core.started = s.core.started := by
  induction turns generalizing s with
  | zero => exact ⟨.refl, rfl⟩
  | succ turns ih =>
    rw [drainFrom]
    split_ifs
    · have hoffer := Offered.offer s.core s.core.front s.target
      rcases hanswer : IDeliveryTarget.receive s.core s.core.front s.target with
        ⟨decision, target⟩
      rw [hanswer] at hoffer
      cases decision with
      | Accepted =>
        obtain ⟨hrest, hstarted⟩ := ih { core := s.core.pop, target := target }
        exact ⟨.head hoffer hrest, hstarted⟩
      | Busy => exact ⟨.single hoffer, rfl⟩
      | Rejected => exact ⟨.single hoffer, rfl⟩
    · exact ⟨.refl, rfl⟩

theorem drain_offers (s : Session τ) :
    Offers s.target s.drain.target ∧ s.drain.core.started = s.core.started :=
  drainFrom_offers _ s

/-- A step before the drain leaves the target alone, or ends the call with the failure. -/
inductive Prepares (s : Session τ) : Except (Session τ) (Session τ) → Prop
  | queued (core : AppleDeliveryCore) (h : core.started = s.core.started) :
      Prepares s (.ok { core := core, target := s.target })
  | failed (core : AppleDeliveryCore) :
      Prepares s (.error
        { core := core.halt, target := IDeliveryTarget.failed core.halt .Overflow s.target })

theorem enqueue_prepares (d : Delivery) (s : Session τ) : Prepares s (s.enqueue d) := by
  rw [enqueue]
  split_ifs
  · exact .failed s.core
  · exact .queued (s.core.push d) rfl

theorem Prepares.bind {s : Session τ} {outcome : Except (Session τ) (Session τ)}
    {next : Session τ → Except (Session τ) (Session τ)} (h : Prepares s outcome)
    (hnext : ∀ core, core.started = s.core.started →
      Prepares s (next { core := core, target := s.target })) :
    Prepares s (outcome >>= next) := by
  cases h with
  | queued core hstarted => exact hnext core hstarted
  | failed core => exact .failed core

/-- What changed in the core before does not matter to the target. -/
theorem Prepares.of_core {s : Session τ} {core : AppleDeliveryCore}
    {outcome : Except (Session τ) (Session τ)}
    (h : Prepares { core := core, target := s.target } outcome)
    (hstarted : core.started = s.core.started) : Prepares s outcome := by
  cases h with
  | queued core' h' => exact .queued core' (h'.trans hstarted)
  | failed core' => exact .failed core'

theorem enqueueCancel_prepares (s : Session τ) : Prepares s s.enqueueCancel := by
  have henqueue := enqueue_prepares s.core.countDelivery.cancelDelivery
    { s with core := s.core.countDelivery }
  exact (henqueue.of_core rfl).bind fun core h => .queued core.resetContact h

theorem enqueuePoint_prepares (event : CapturedEvent) (s : Session τ) :
    Prepares s (s.enqueuePoint event) := by
  have henqueue := enqueue_prepares
    ((s.core.observe event).countDelivery.countSample.pointDelivery event)
    { s with core := (s.core.observe event).countDelivery.countSample }
  refine (henqueue.of_core rfl).bind fun core h => ?_
  by_cases hend : event.kind = .End
  · simp only [hend, if_true]
    exact .queued core.resetContact h
  · simp only [hend, if_false]
    exact .queued core h

/-- A new contact, behind the cancellation of one that is still open. -/
theorem beginContact_prepares (event : CapturedEvent) (s : Session τ) :
    Prepares s ((if s.core.contactOpen then s.enqueueCancel else .ok s) >>= fun s =>
      enqueuePoint event { s with core := s.core.openContact }) := by
  have hfirst : Prepares s (if s.core.contactOpen then s.enqueueCancel else .ok s) := by
    split_ifs
    · exact enqueueCancel_prepares s
    · exact .queued s.core rfl
  refine hfirst.bind fun core h => ?_
  exact (enqueuePoint_prepares event { core := core.openContact, target := s.target }).of_core h

/-- How a call can leave the target: with offers alone, or with the failure alone. -/
inductive Leaves (s : Session τ) : Session τ → Prop
  | offers (s' : Session τ) (h : Offers s.target s'.target)
      (hstarted : s'.core.started = s.core.started) : Leaves s s'
  | failed (core : AppleDeliveryCore) :
      Leaves s { core := core.halt, target := IDeliveryTarget.failed core.halt .Overflow s.target }

theorem Prepares.finish {s : Session τ} {outcome : Except (Session τ) (Session τ)}
    (h : Prepares s outcome) : Leaves s (finish outcome) := by
  cases h with
  | queued core hstarted =>
    obtain ⟨hoffers, hsame⟩ := drain_offers { core := core, target := s.target }
    exact .offers _ hoffers (hsame.trans hstarted)
  | failed core => exact .failed core

/-- A submitted event leads to offers, or fills the queue and ends the session. -/
theorem submitEvent_leaves (event : CapturedEvent) (s : Session τ) :
    Leaves s (s.submitEvent event) := by
  by_cases hs : s.core.started
  · cases hk : event.kind with
    | DeviceObserved =>
      simp only [submitEvent, hs, hk]
      exact .offers _ .refl rfl
    | Cancel =>
      by_cases ho : s.core.contactOpen
      all_goals simp only [submitEvent, hs, hk, ho]
      · exact (enqueueCancel_prepares s).finish
      · exact .offers s .refl rfl
    | Begin =>
      have hbegin := (beginContact_prepares event s).finish
      by_cases ho : s.core.contactOpen
      all_goals simpa [submitEvent, hs, hk, ho] using hbegin
    | Update | End =>
      by_cases ho : s.core.contactOpen
      all_goals simp only [submitEvent, hs, hk, ho]
      · exact (enqueuePoint_prepares event s).finish
      · exact .offers s .refl rfl
  · have hstopped : s.submitEvent event = s := by simp [submitEvent, hs]
    rw [hstopped]
    exact .offers s .refl rfl

/-- Stop offers at most a cancellation, and ends the session. -/
theorem stop_offers (s : Session τ) :
    Offers s.target s.stop.target ∧ s.stop.core.started = false := by
  rw [stop]
  split_ifs
  · exact ⟨(drain_offers { s with core := s.core.onlyCancel }).1, rfl⟩
  · exact ⟨.refl, rfl⟩

end Session
end LightPhi.Apple
