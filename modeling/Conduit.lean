import Conduit.Bridge.Session
import Conduit.Net.Hub
import Conduit.Body.Slots
import Conduit.Wire.FlagsFirst
import Conduit.Wire.Intake
import Conduit.Wire.SizeFirst
import Conduit.Proofs.ChunkLayout
import Conduit.Proofs.ChunkTurnover
import Conduit.Proofs.LinkedChunks
import Conduit.Proofs.QueueAsList
import Conduit.Proofs.LinkedQueue
import Conduit.Proofs.ChannelContents
import Conduit.Proofs.EndpointSound
import Conduit.Proofs.CallEdits
import Conduit.Proofs.PipeDeeds
import Conduit.Proofs.Assertions
import Conduit.Proofs.CallDeeds
import Conduit.Proofs.DeedEffects
import Conduit.Proofs.Handshake
import Conduit.Proofs.HandshakeSafety
import Conduit.Proofs.ReadingOn
import Conduit.Proofs.EndOfStream
import Conduit.Proofs.Convergence
import Conduit.Proofs.Ledger
import Conduit.Proofs.Delivery
import Conduit.Proofs.Credit
import Conduit.Proofs.Decoding
import Conduit.Proofs.Encoding
import Conduit.Proofs.Rotation
import Conduit.Proofs.Readiness
import Conduit.Proofs.Polling
import Conduit.Proofs.RoundRobin
import Conduit.Proofs.RoundTrip
import Conduit.Proofs.SharedPosition
import Conduit.Proofs.TornMessages
import Conduit.Proofs.Line
import Conduit.Proofs.Partition
import Conduit.Proofs.Network
import Conduit.Proofs.Wiring
import Conduit.Proofs.Fanout
import Conduit.Proofs.Floor
import Conduit.Proofs.Schedulers
import Conduit.Proofs.Wakefulness
import Conduit.Proofs.Reception
import Conduit.Proofs.Wakeups
import Conduit.Proofs.WholeTurns
import Conduit.Proofs.Consignment
import Conduit.Proofs.Dispatch
import Conduit.Proofs.MessageInParts
import Conduit.Proofs.WholeOrNothing
import Conduit.Proofs.Outstanding
import Conduit.Proofs.Output
import Conduit.Proofs.GracefulEnd
import Conduit.Proofs.Resumption
import Conduit.Proofs.RaisedMarks
import Conduit.Proofs.QueueHistory
import Conduit.Proofs.PackedPosition
import Conduit.Proofs.Bell
import Conduit.Proofs.Attendance
import Conduit.Proofs.Pulling
import Conduit.Proofs.Lookahead
import Conduit.Proofs.EngineTurns
import Conduit.Proofs.EngineRun
import Conduit.Proofs.Feed
import Conduit.Proofs.InboundPath
import Conduit.Proofs.InboundRun
import Conduit.Proofs.InboundSteps
import Conduit.Proofs.InboundEnd
import Conduit.Proofs.InboundDelivery
import Conduit.Proofs.Starvation
import Conduit.Proofs.OutboundPath
import Conduit.Proofs.OutboundEnd
import Conduit.Proofs.Statistics
import Conduit.Proofs.Failures
import Conduit.Proofs.Announcements
import Conduit.Proofs.WordSizes
import Conduit.Proofs.BodySizes
import Conduit.Proofs.BlockLoops
import Conduit.Proofs.ReadTargets
import Conduit.Proofs.Attribution
import Conduit.Proofs.Resemblance
import Conduit.Proofs.Repetition
import Conduit.Proofs.HandleCalls
import Conduit.Proofs.HandleIndex
import Conduit.Proofs.NestedViews
import Conduit.Proofs.Cursors
import Conduit.Proofs.SharedPools
import Conduit.Proofs.PooledBodies
import Conduit.Proofs.PoolTurnover
