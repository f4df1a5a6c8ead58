import LightPhi.Base.Binary64
import LightPhi.Input.Capabilities

/-! Samples, batches and what crosses the boundary between a source and its receiver. -/
namespace LightPhi.Input
open Base

structure SampleId where
  value : UInt64 := 0
  deriving DecidableEq, Repr, Inhabited

/-- How a sample was obtained. The C++ enumeration is one byte wide, so a value above the last
enumerator can be stored; `Invented` holds its distance from there. -/
inductive SampleOrigin where
  | Measured | Coalesced | Predicted | Corrected
  | Invented (excess : Fin 252)
  deriving DecidableEq, Repr, Inhabited

def SampleOrigin.value : SampleOrigin → Nat
  | .Measured => 0
  | .Coalesced => 1
  | .Predicted => 2
  | .Corrected => 3
  | .Invented excess => 4 + excess

def lastSampleOrigin : SampleOrigin := .Corrected

structure InputSample where
  id : SampleId := {}
  corrects : SampleId := {}
  sequence : UInt64 := 0
  timeNanoseconds : UInt64 := 0
  x : Binary64 := .zero
  y : Binary64 := .zero
  pressure : Binary64 := .zero
  tiltXRadians : Binary64 := .zero
  tiltYRadians : Binary64 := .zero
  twistRadians : Binary64 := .zero
  origin : SampleOrigin := .Measured
  eraser : Bool := false
  hovering : Bool := false
  deriving DecidableEq, Repr, Inhabited

/-- Hard upper bound for one source delivery. -/
def maximumBatchSamples : Nat := 256

structure ContactId where
  value : UInt64 := 0
  deriving DecidableEq, Repr, Inhabited

/-- Lifecycle position of a batch, with the undefined byte values as for the sample origin. -/
inductive ContactPhase where
  | Begin | Update | End | Cancel
  | Invented (excess : Fin 252)
  deriving DecidableEq, Repr, Inhabited

def ContactPhase.value : ContactPhase → Nat
  | .Begin => 0
  | .Update => 1
  | .End => 2
  | .Cancel => 3
  | .Invented excess => 4 + excess

def lastContactPhase : ContactPhase := .Cancel

/-- Whether a batch of this phase ends its contact. -/
def ContactPhase.closes (phase : ContactPhase) : Bool := phase == .End || phase == .Cancel

structure InputBatch where
  contact : ContactId := {}
  batchOrdinal : UInt64 := 0
  phase : ContactPhase := .Begin
  samples : List InputSample := []
  deriving DecidableEq, Repr, Inhabited

inductive DeliveryResult where
  | Accepted | Busy | Rejected
  deriving DecidableEq, Repr

inductive InputSourceError where
  | AlreadyStarted | Unavailable | BackendFailure | Overflow
  deriving DecidableEq, Repr

end LightPhi.Input
