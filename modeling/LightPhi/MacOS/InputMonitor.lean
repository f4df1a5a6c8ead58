import LightPhi.Apple.EventSink

/-! The Swift side of the macOS backend: what one AppKit event stands for, and the state of the
monitor that captures them. -/
namespace LightPhi.MacOS
open Base Apple

inductive NSEventType where
  | leftMouseDown | leftMouseDragged | leftMouseUp | mouseCancelled | tabletProximity | other
  deriving DecidableEq, Repr

/-- One AppKit event. Its numbers stand as the adapter converts them: nanoseconds, a position from
the top left of the content view, and radians. -/
structure NSEvent where
  type : NSEventType
  tabletPoint : Bool := false
  eraserDevice : Bool := false
  capabilityMask : UInt64 := 0
  timeNanoseconds : UInt64 := 0
  x : Binary64 := .zero
  y : Binary64 := .zero
  pressure : Binary64 := .zero
  tiltXRadians : Binary64 := .zero
  tiltYRadians : Binary64 := .zero
  twistRadians : Binary64 := .zero
  deriving DecidableEq, Repr

namespace AppKitTabletCapability
def tiltX : UInt64 := 0x0080
def tiltY : UInt64 := 0x0100
def pressure : UInt64 := 0x0400
def rotation : UInt64 := 0x2000
end AppKitTabletCapability

/-- The capabilities an AppKit tablet reports in its proximity capability mask. -/
def mapAppKitCapabilities (mask : UInt64) (eraser : Bool) : UInt16 :=
  let capabilities := CapturedCapability.Timestamp
  let capabilities := if mask &&& AppKitTabletCapability.pressure != 0 then
    capabilities ||| CapturedCapability.Pressure else capabilities
  let capabilities := if mask &&& AppKitTabletCapability.tiltX != 0 &&
      mask &&& AppKitTabletCapability.tiltY != 0 then
    capabilities ||| CapturedCapability.Tilt else capabilities
  let capabilities := if mask &&& AppKitTabletCapability.rotation != 0 then
    capabilities ||| CapturedCapability.Twist else capabilities
  if eraser then capabilities ||| CapturedCapability.Eraser else capabilities

def capturedKind : NSEventType → Option CapturedEventKind
  | .leftMouseDown => some .Begin
  | .leftMouseDragged => some .Update
  | .leftMouseUp => some .End
  | .mouseCancelled | .tabletProximity | .other => none

/-- The contact event a mouse event stands for. Only a tablet point carries what a pen measures. -/
def capturedEvent (event : NSEvent) (eraser : Bool) : Option CapturedEvent :=
  (capturedKind event.type).map fun kind =>
    let captured : CapturedEvent :=
      { kind := kind, timeNanoseconds := event.timeNanoseconds, x := event.x, y := event.y }
    if !event.tabletPoint then captured
    else { captured with
      pressure := event.pressure
      tiltXRadians := event.tiltXRadians
      tiltYRadians := event.tiltYRadians
      twistRadians := event.twistRadians
      eraser := eraser }

/-- One monitor object. The retry closures know it by the number of the object, weakly. -/
structure MacOSInputMonitor where
  object : Nat
  acceptPointerFallback : Bool
  eventMonitor : Bool := false
  resignObserver : Bool := false
  eraser : Bool := false
  observedTablet : Bool := false
  observedPointer : Bool := false
  retryScheduled : Bool := false
  deriving DecidableEq, Repr

/-- What AppKit answers while a monitor starts: whether this is the main thread, whether there is
an application, and whether the event monitor could be added. -/
structure AppKit where
  mainThread : Bool := true
  application : Bool := true
  monitorAdded : Bool := true
  deriving DecidableEq, Repr

def MacOSInputMonitor.start (appKit : AppKit) (monitor : MacOSInputMonitor) :
    Bool × MacOSInputMonitor :=
  if !(appKit.mainThread && appKit.application && !monitor.eventMonitor) then (false, monitor)
  else (appKit.monitorAdded,
    { monitor with eventMonitor := appKit.monitorAdded, resignObserver := true })

end LightPhi.MacOS
