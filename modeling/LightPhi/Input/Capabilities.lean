import Mathlib.Init

/-! Runtime input capabilities: a 16-bit mask and the bound on one delivery. -/
namespace LightPhi.Input

/-- One feature or a set of them. Any 16-bit value can arrive, defined or not. -/
abbrev InputCapability := UInt16

namespace InputCapability
def None : InputCapability := 0
def Pressure : InputCapability := (1 : UInt16) <<< 0
def Coalescing : InputCapability := (1 : UInt16) <<< 1
def Prediction : InputCapability := (1 : UInt16) <<< 2
def Correction : InputCapability := (1 : UInt16) <<< 3
def Timestamp : InputCapability := (1 : UInt16) <<< 4
def Tilt : InputCapability := (1 : UInt16) <<< 5
def Twist : InputCapability := (1 : UInt16) <<< 6
def Eraser : InputCapability := (1 : UInt16) <<< 7
def Hover : InputCapability := (1 : UInt16) <<< 8
end InputCapability

def allInputCapabilities : InputCapability :=
  InputCapability.Pressure ||| InputCapability.Coalescing ||| InputCapability.Prediction |||
    InputCapability.Correction ||| InputCapability.Timestamp ||| InputCapability.Tilt |||
    InputCapability.Twist ||| InputCapability.Eraser ||| InputCapability.Hover

structure InputSourceCapabilities where
  available : InputCapability := 0
  maximumBatchSamples : UInt32 := 0
  deriving DecidableEq, Repr, Inhabited

/-- Whether a source reports every capability of the requested mask. -/
def supports (capabilities : InputSourceCapabilities) (requested : InputCapability) : Bool :=
  capabilities.available &&& requested == requested

end LightPhi.Input
