import LightPhi.Apple.DeliveryCore

/-! What is seen of a core from outside: the calls made to it and the calls it makes to its
target, and what an observer keeps of them. -/
namespace LightPhi.Apple

inductive CoreOp where
  | start
  | submit (event : CapturedEvent)
  | retryPending
  | stop
  deriving DecidableEq, Repr

inductive CoreEvent where
  | called (op : CoreOp)
  | stopped
  | receive (capabilities : UInt16) (delivery : Delivery) (decision : DeliveryDecision)
  | failed (failure : DeliveryFailure)
  deriving DecidableEq, Repr

def CoreEvent.call? : CoreEvent → Option CoreOp
  | .called op => some op
  | _ => none

def CoreOp.submitted? : CoreOp → Option CapturedEvent
  | .submit event => some event
  | _ => none

def CoreEvent.accepted? : CoreEvent → Option Delivery
  | .receive _ delivery .Accepted => some delivery
  | _ => none

def CoreEvent.offered? : CoreEvent → Option Delivery
  | .receive _ delivery _ => some delivery
  | _ => none

/-- Whether queued deliveries are lost by what happens here. -/
def CoreEvent.abandons : CoreEvent → Bool
  | .receive _ _ .Rejected | .failed _ => true
  | _ => false

def NothingAbandoned (trace : List CoreEvent) : Prop := ∀ event ∈ trace, event.abandons = false

instance (trace : List CoreEvent) : Decidable (NothingAbandoned trace) :=
  inferInstanceAs (Decidable (∀ event ∈ trace, _))

/-- The calls made, in order. -/
def callsOf (trace : List CoreEvent) : List CoreOp := trace.filterMap CoreEvent.call?

/-- The events submitted by the calls, in order. -/
def submittedBy (ops : List CoreOp) : List CapturedEvent := ops.filterMap CoreOp.submitted?

/-- The events submitted so far. -/
def eventsIn (trace : List CoreEvent) : List CapturedEvent := submittedBy (callsOf trace)

/-- The deliveries the target accepted, in order. -/
def acceptedOf (trace : List CoreEvent) : List Delivery := trace.filterMap CoreEvent.accepted?

/-- The deliveries offered to the target, in order, whatever it answered. -/
def offersOf (trace : List CoreEvent) : List Delivery := trace.filterMap CoreEvent.offered?

/-- The most recent offer since Start, with the answer to it. -/
def lastOffer (trace : List CoreEvent) : Option (Delivery × DeliveryDecision) :=
  trace.foldl (fun last event => match event with
    | .called .start => none
    | .receive _ delivery decision => some (delivery, decision)
    | _ => last) none

/-- The most recent answer since Start. -/
def lastAnswer (trace : List CoreEvent) : Option DeliveryDecision :=
  (lastOffer trace).map Prod.snd

/-- The delivery the target was last offered and could not take. -/
def refused (trace : List CoreEvent) : Option Delivery :=
  match lastOffer trace with
  | some (delivery, .Busy) => some delivery
  | _ => none

theorem nothingAbandoned_append {trace events : List CoreEvent} :
    NothingAbandoned (trace ++ events) ↔ NothingAbandoned trace ∧ NothingAbandoned events := by
  simp [NothingAbandoned, or_imp, forall_and]

section Lists
variable (trace events : List CoreEvent) (mask : UInt16) (d : Delivery)
  (decision : DeliveryDecision) (event : CapturedEvent) (op : CoreOp) (failure : DeliveryFailure)

@[simp] theorem callsOf_append : callsOf (trace ++ events) = callsOf trace ++ callsOf events :=
  List.filterMap_append ..

@[simp] theorem eventsIn_nil : eventsIn [] = [] := rfl
@[simp] theorem eventsIn_append :
    eventsIn (trace ++ events) = eventsIn trace ++ eventsIn events := by
  simp [eventsIn, submittedBy]
@[simp] theorem eventsIn_submit :
    eventsIn (.called (.submit event) :: trace) = event :: eventsIn trace := rfl
@[simp] theorem eventsIn_start : eventsIn (.called .start :: trace) = eventsIn trace := rfl
@[simp] theorem eventsIn_retry : eventsIn (.called .retryPending :: trace) = eventsIn trace := rfl
@[simp] theorem eventsIn_stop : eventsIn (.called .stop :: trace) = eventsIn trace := rfl
@[simp] theorem eventsIn_stopped : eventsIn (.stopped :: trace) = eventsIn trace := rfl
@[simp] theorem eventsIn_failed : eventsIn (.failed failure :: trace) = eventsIn trace := rfl
@[simp] theorem eventsIn_receive :
    eventsIn (.receive mask d decision :: trace) = eventsIn trace := rfl

@[simp] theorem acceptedOf_nil : acceptedOf [] = [] := rfl
@[simp] theorem acceptedOf_append :
    acceptedOf (trace ++ events) = acceptedOf trace ++ acceptedOf events := List.filterMap_append ..
@[simp] theorem acceptedOf_called : acceptedOf (.called op :: trace) = acceptedOf trace := rfl
@[simp] theorem acceptedOf_accepted :
    acceptedOf (.receive mask d .Accepted :: trace) = d :: acceptedOf trace := rfl
@[simp] theorem acceptedOf_busy :
    acceptedOf (.receive mask d .Busy :: trace) = acceptedOf trace := rfl

@[simp] theorem offersOf_nil : offersOf [] = [] := rfl
@[simp] theorem offersOf_append :
    offersOf (trace ++ events) = offersOf trace ++ offersOf events := List.filterMap_append ..
@[simp] theorem offersOf_called : offersOf (.called op :: trace) = offersOf trace := rfl
@[simp] theorem offersOf_stopped : offersOf (.stopped :: trace) = offersOf trace := rfl
@[simp] theorem offersOf_failed : offersOf (.failed failure :: trace) = offersOf trace := rfl
@[simp] theorem offersOf_receive :
    offersOf (.receive mask d decision :: trace) = d :: offersOf trace := rfl

end Lists
section Last
variable (trace : List CoreEvent) (mask : UInt16) (d : Delivery) (decision : DeliveryDecision)

@[simp] theorem lastOffer_called (op : CoreOp) (h : op ≠ .start) :
    lastOffer (trace ++ [.called op]) = lastOffer trace := by
  cases op <;> simp_all [lastOffer]

@[simp] theorem lastOffer_start : lastOffer (trace ++ [.called .start]) = none := by
  simp [lastOffer]

@[simp] theorem lastOffer_receive :
    lastOffer (trace ++ [.receive mask d decision]) = some (d, decision) := by
  simp [lastOffer]

end Last
end LightPhi.Apple
