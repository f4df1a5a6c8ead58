import LightPhi.Base.Word
import LightPhi.Base.Binary64
import LightPhi.Base.Sequences
import LightPhi.Base.RingBuffer
import LightPhi.Base.Segments
import LightPhi.Base.Trace
import LightPhi.Base.Simulation
import LightPhi.Base.Checked
import LightPhi.Base.Access
import LightPhi.Base.Machine
import LightPhi.Input.Capabilities
import LightPhi.Input.Source
import LightPhi.Input.Validation
import LightPhi.Input.BatchValidation
import LightPhi.Input.DeliveryRules
import LightPhi.Input.SampleScan
import LightPhi.Input.DeliveryHistory
import LightPhi.Input.CommittedOrder
import LightPhi.Input.GrowingCapabilities
import LightPhi.Input.FirstOffender
import LightPhi.Input.ArrayAccess
import LightPhi.Input.ReachedStates
import LightPhi.Input.LeastCapabilities
import LightPhi.Apple.EventSink
import LightPhi.Apple.DeliveryCore
import LightPhi.Apple.TargetCalls
import LightPhi.Apple.Conversation
import LightPhi.Apple.Translation
import LightPhi.Apple.QueueModel
import LightPhi.Apple.Refinement
import LightPhi.Apple.Wraparound
import LightPhi.Apple.DeliveryOrder
import LightPhi.Apple.Overflow
import LightPhi.Apple.ReportedCapabilities
import LightPhi.Apple.StopContact
import LightPhi.Apple.Identities
import LightPhi.Apple.Offers
import LightPhi.Apple.Recording
import LightPhi.MacOS.PublicRules
import LightPhi.MacOS.InputMonitor
import LightPhi.MacOS.Backend
import LightPhi.MacOS.Sessions
import LightPhi.MacOS.Retries
import LightPhi.MacOS.SampleArena
import LightPhi.MacOS.Receivers
import LightPhi.MacOS.Handover
import LightPhi.MacOS.Monitors
import LightPhi.MacOS.NothingLost
import LightPhi.MacOS.ReportedCapabilities
import LightPhi.MacOS.FreshIdentities
import LightPhi.Fake.FakeBackend
import LightPhi.Fake.ScriptQueue
import LightPhi.Fake.Refinement
import LightPhi.Fake.PublicRules
import LightPhi.Fake.Calls
import LightPhi.Fake.Fifo
import LightPhi.Fake.FreshStart
import LightPhi.Fake.WholeScript
import LightPhi.Fake.Dialogue
import LightPhi.MacOS.Answers
import LightPhi.MacOS.Rehearsal
import LightPhi.Base.Search
import LightPhi.Base.Tiling
import LightPhi.Docs.Lexer
import LightPhi.Docs.Reading
import LightPhi.Docs.Lexeme
import LightPhi.Docs.Comments
import LightPhi.Docs.Blanking
import LightPhi.Base.Brackets
import LightPhi.Docs.Bodies
import LightPhi.Docs.DocComment
import LightPhi.Docs.Continuation
import LightPhi.Base.Unclosed
import LightPhi.Base.Matches
import LightPhi.Docs.Scopes
import LightPhi.Docs.MemberAccess
import LightPhi.Base.Exploration
import LightPhi.Docs.Entities
import LightPhi.Docs.Rendering
import LightPhi.Base.Fences
import LightPhi.Docs.Nesting
import LightPhi.Base.Grouping
import LightPhi.Docs.Diagram
import LightPhi.Docs.DocSpans
import LightPhi.Input.Rejoining
import LightPhi.Input.Renumbering
import LightPhi.Fake.MoreRoom
import LightPhi.Docs.Declarations
