import LightPhi.Apple.Refinement
import LightPhi.Apple.TargetCalls

/-! Writing the conversation down changes nothing: with the record left out, every call does what
it does without one. -/
namespace LightPhi.Apple
namespace Session
variable {τ : Type*}

/-- The session with its record left out. -/
def unrecorded (s : Session (Recorded τ)) : Session τ :=
  { core := s.core, target := s.target.target }

/-- The session with a record that goes on behind the given events. -/
def recordedBehind (trace : List CoreEvent) (s : Session τ) : Session (Recorded τ) :=
  { core := s.core, target := { target := s.target, trace := trace } }

def unrecordedOutcome :
    Except (Session (Recorded τ)) (Session (Recorded τ)) → Except (Session τ) (Session τ)
  | .ok s => .ok s.unrecorded
  | .error s => .error s.unrecorded

section Unrecorded
variable [IDeliveryTarget τ] (s : Session (Recorded τ))

omit [IDeliveryTarget τ] in
theorem unrecordedOutcome_bind (outcome : Except (Session (Recorded τ)) (Session (Recorded τ)))
    (next : Session (Recorded τ) → Except (Session (Recorded τ)) (Session (Recorded τ)))
    (next' : Session τ → Except (Session τ) (Session τ))
    (hnext : ∀ s, unrecordedOutcome (next s) = next' s.unrecorded) :
    unrecordedOutcome (outcome >>= next) = unrecordedOutcome outcome >>= next' := by
  cases outcome with
  | ok s => exact hnext s
  | error s => rfl

theorem unrecorded_drainFrom (turns : Nat) :
    (s.drainFrom turns).unrecorded = s.unrecorded.drainFrom turns := by
  induction turns generalizing s with
  | zero => rfl
  | succ turns ih =>
    have hpending : s.unrecorded.core.hasPending = s.core.hasPending := rfl
    rw [drainFrom, drainFrom, hpending]
    split_ifs with h
    · have hanswer : IDeliveryTarget.receive s.core s.core.front s.target =
          ((IDeliveryTarget.receive s.core s.core.front s.target.target).1,
            (IDeliveryTarget.receive s.core s.core.front s.target).2) := rfl
      have hsame : (IDeliveryTarget.receive s.core s.core.front s.target).2.target =
          (IDeliveryTarget.receive s.core s.core.front s.target.target).2 := rfl
      have hcore : s.unrecorded.core = s.core := rfl
      have htarget : s.unrecorded.target = s.target.target := rfl
      rw [hanswer, hcore, htarget]
      rcases hreceive : IDeliveryTarget.receive s.core s.core.front s.target.target with
        ⟨decision, target⟩
      rw [hreceive] at hsame
      cases decision with
      | Accepted =>
        refine (ih _).trans ?_
        simp only [unrecorded, hsame]
      | Busy => simp only [unrecorded, hsame]
      | Rejected => simp only [unrecorded, hsame]
    · rfl

theorem unrecorded_drain : s.drain.unrecorded = s.unrecorded.drain :=
  unrecorded_drainFrom s _

theorem unrecorded_enqueue (d : Delivery) :
    unrecordedOutcome (s.enqueue d) = s.unrecorded.enqueue d := by
  have hsize : s.unrecorded.core = s.core := rfl
  rw [enqueue, enqueue, hsize]
  split_ifs <;> rfl

theorem unrecorded_enqueueCancel :
    unrecordedOutcome s.enqueueCancel = s.unrecorded.enqueueCancel := by
  rw [enqueueCancel, unrecordedOutcome_bind _ _
    (fun s => .ok { s with core := s.core.resetContact }) fun _ => rfl, unrecorded_enqueue]
  rfl

theorem unrecorded_enqueuePoint (event : CapturedEvent) :
    unrecordedOutcome (s.enqueuePoint event) = s.unrecorded.enqueuePoint event := by
  have hnext (s : Session (Recorded τ)) : unrecordedOutcome
      (.ok (if event.kind = .End then { s with core := s.core.resetContact } else s)) =
        .ok (if event.kind = .End then
          { s.unrecorded with core := s.unrecorded.core.resetContact } else s.unrecorded) := by
    split_ifs <;> rfl
  rw [enqueuePoint, unrecordedOutcome_bind _ _ (fun s => .ok (if event.kind = .End then
    { s with core := s.core.resetContact } else s)) hnext, unrecorded_enqueue]
  rfl

theorem unrecorded_finish (outcome : Except (Session (Recorded τ)) (Session (Recorded τ))) :
    (finish outcome).unrecorded = finish (unrecordedOutcome outcome) := by
  cases outcome with
  | ok s => exact unrecorded_drain s
  | error s => rfl

theorem unrecorded_submitEvent (event : CapturedEvent) :
    (s.submitEvent event).unrecorded = s.unrecorded.submitEvent event := by
  have hcore : s.unrecorded.core = s.core := rfl
  by_cases hs : s.core.started
  · cases hk : event.kind with
    | DeviceObserved =>
      simp only [submitEvent, hcore, hs, hk]
      rfl
    | Cancel =>
      by_cases ho : s.core.contactOpen
      all_goals simp only [submitEvent, hcore, hs, hk, ho]
      · exact (unrecorded_finish _).trans (congrArg finish (unrecorded_enqueueCancel s))
      · rfl
    | Begin =>
      have hpoint := fun s : Session (Recorded τ) =>
        unrecorded_enqueuePoint { s with core := s.core.openContact } event
      by_cases ho : s.core.contactOpen
      all_goals
        simp only [submitEvent, hcore, hs, hk, ho]
        refine (unrecorded_finish _).trans (congrArg finish ?_)
      · refine (unrecordedOutcome_bind _ _
          (fun s => enqueuePoint event { s with core := s.core.openContact }) hpoint).trans ?_
        rw [unrecorded_enqueueCancel]
        rfl
      · exact hpoint s
    | Update | End =>
      by_cases ho : s.core.contactOpen
      all_goals simp only [submitEvent, hcore, hs, hk, ho]
      · exact (unrecorded_finish _).trans (congrArg finish (unrecorded_enqueuePoint s event))
      · rfl
  · simp [submitEvent, hcore, hs]

theorem unrecorded_stop : s.stop.unrecorded = s.unrecorded.stop := by
  have hcore : s.unrecorded.core = s.core := rfl
  rw [stop, stop, hcore]
  split_ifs
  · have hdrain := unrecorded_drain { s with core := s.core.onlyCancel }
    exact congrArg (fun s : Session τ => { s with core := s.core.halt }) hdrain
  · rfl

/-- A call that is written down, without the record. -/
theorem unrecorded_perform (op : CoreOp) :
    (s.perform op).unrecorded = match op with
      | .start => s.unrecorded.start
      | .submit event => (s.unrecorded.submit event).2
      | .retryPending => s.unrecorded.retryPending.2
      | .stop => s.unrecorded.stop := by
  cases op with
  | start => rfl
  | submit event => exact unrecorded_submitEvent (s.record _) event
  | retryPending => exact unrecorded_drain (s.record _)
  | stop => exact unrecorded_stop (s.record _)

end Unrecorded
end Session
end LightPhi.Apple
