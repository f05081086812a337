import IoWrapper.Core.Machine
import IoWrapper.Core.Collections
import IoWrapper.Core.Decimal
import IoWrapper.Core.Vectored
import IoWrapper.Core.Pool
import IoWrapper.Core.Rings
import IoWrapper.Core.Tables
import IoWrapper.Core.Registry
import IoWrapper.Core.Traffic
import IoWrapper.Core.Dispatch
import IoWrapper.Core.BufRing
import IoWrapper.Core.Provenance
import IoWrapper.Core.Heap
import IoWrapper.Core.Relay
import IoWrapper.Core.Calls
import IoWrapper.Core.Progress
import IoWrapper.Core.Labels
import IoWrapper.Core.Leftovers
import IoWrapper.FileRing.Blocks
import IoWrapper.FileRing.Sizes
import IoWrapper.FileRing.Ring
import IoWrapper.FileRing.Pop
import IoWrapper.FileRing.Loop
import IoWrapper.FileRing.Counter
import IoWrapper.FileRing.Poll
import IoWrapper.FileRing.Ledger
import IoWrapper.FileRing.Batch
import IoWrapper.FileRing.Failure
import IoWrapper.FileRing.Memory
import IoWrapper.FileRing.Custody
import IoWrapper.FileRing.Refinement
import IoWrapper.FileRing.Session
import IoWrapper.FileRing.Cleanup
import IoWrapper.Echo.Server
import IoWrapper.Echo.Accounting
import IoWrapper.Echo.Buffers
import IoWrapper.Echo.Pending
import IoWrapper.Echo.NoBufs
import IoWrapper.Echo.Fidelity
import IoWrapper.Echo.Room
import IoWrapper.TokenEcho.Server
import IoWrapper.TokenEcho.Chain
import IoWrapper.TokenEcho.Operations
import IoWrapper.TokenEcho.Buffers
import IoWrapper.TokenEcho.Entries
import IoWrapper.TokenEcho.Burst
import IoWrapper.TokenEcho.Slots
import IoWrapper.TokenEcho.Transfers
import IoWrapper.TokenEcho.Descriptors
import IoWrapper.TokenEcho.Relaying
import IoWrapper.CoroEcho.Server
import IoWrapper.CoroEcho.Matching
import IoWrapper.CoroEcho.Lengths
import IoWrapper.CoroEcho.Descriptors
import IoWrapper.CoroEcho.Room
import IoWrapper.CoroEcho.Burst
import IoWrapper.CoroEcho.Lockstep
import IoWrapper.CoroEcho.Transfers
import IoWrapper.CoroEcho.Refinement
import IoWrapper.GoEcho.Operations
import IoWrapper.GoEcho.Address
import IoWrapper.MultiEcho.Server
import IoWrapper.MultiEcho.Registry
import IoWrapper.MultiEcho.Accepts
import IoWrapper.MultiEcho.Buffers
import IoWrapper.MultiEcho.Relaying
import IoWrapper.SingleEcho.Server
import IoWrapper.SingleEcho.Agreement
import IoWrapper.SingleEcho.Lockstep
import IoWrapper.EventfdEcho.Server
import IoWrapper.EventfdEcho.Wakeups
import IoWrapper.EventfdEcho.Registry
import IoWrapper.EventfdEcho.Order
import IoWrapper.EventfdEcho.Accepts
import IoWrapper.EventfdEcho.Rest
import IoWrapper.EchoV1.Server
import IoWrapper.EchoV1.Records
import IoWrapper.EchoV1.Pending
import IoWrapper.EchoV1.FixedFiles
import IoWrapper.EchoV1.Bounds
import IoWrapper.EchoV1.Transfers
import IoWrapper.EchoV1.Relaying
import IoWrapper.EchoV1.Strays
import IoWrapper.EchoV2.Server
import IoWrapper.EchoV2.Records
import IoWrapper.EchoV2.Recycling
import IoWrapper.EchoV2.Sources
import IoWrapper.EchoV3.Server
import IoWrapper.EchoV3.Records
import IoWrapper.EchoV3.Buffers
import IoWrapper.EchoV3.Connections
import IoWrapper.EpollEcho.Server
import IoWrapper.EpollEcho.Edges
import IoWrapper.EpollDemo.Server
import IoWrapper.EpollDemo.Connections
import IoWrapper.EpollDemo.Backlog
import IoWrapper.EpollDemo.Variants
import IoWrapper.SeqEcho.Server
import IoWrapper.SeqEcho.Connections
import IoWrapper.NetpollEcho.Server
import IoWrapper.NetpollEcho.Elements
import IoWrapper.DemoEcho.Server
import IoWrapper.DemoEcho.Pending
import IoWrapper.MsgEcho.Server
import IoWrapper.MsgEcho.Tasks
import IoWrapper.MsgEcho.Messages
import IoWrapper.MsgEcho.Turns
import IoWrapper.MsgEcho.Isolation
import IoWrapper.UdpPool.Worker
import IoWrapper.UdpPool.Rounds
