import LightPhi.Base.Binary64

/-! The values that cross from a platform capture adapter to the delivery core. -/
namespace LightPhi.Apple
open Base

inductive CapturedEventKind where
  | DeviceObserved | Begin | Update | End | Cancel
  deriving DecidableEq, Repr

/-- One capability bit or a mask of them, with the numbering of the input contract. -/
abbrev CapturedCapability := UInt16

namespace CapturedCapability
def Pressure : CapturedCapability := (1 : UInt16) <<< 0
def Timestamp : CapturedCapability := (1 : UInt16) <<< 4
def Tilt : CapturedCapability := (1 : UInt16) <<< 5
def Twist : CapturedCapability := (1 : UInt16) <<< 6
def Eraser : CapturedCapability := (1 : UInt16) <<< 7
end CapturedCapability

structure CapturedEvent where
  kind : CapturedEventKind := .DeviceObserved
  capabilities : UInt16 := 0
  timeNanoseconds : UInt64 := 0
  x : Binary64 := .zero
  y : Binary64 := .zero
  pressure : Binary64 := .zero
  tiltXRadians : Binary64 := .zero
  tiltYRadians : Binary64 := .zero
  twistRadians : Binary64 := .zero
  eraser : Bool := false
  deriving DecidableEq, Repr

end LightPhi.Apple
