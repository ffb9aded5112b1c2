import HappyServer.Lib.Block
import HappyServer.Lib.Runs
import HappyServer.Lib.Rotation
import HappyServer.Lib.Word
import HappyServer.Timer.Wheel
import HappyServer.Timer.Agenda
import HappyServer.Timer.Schedule
import HappyServer.Timer.DueSlot
import HappyServer.Timer.Exact
import HappyServer.Timer.WorkerTimer
import HappyServer.Timer.Lifetime
import HappyServer.Timer.Census
import HappyServer.Lib.Fair
import HappyServer.Worker.Mailbox
import HappyServer.Worker.Delivery
import HappyServer.Lib.LittleEndian
import HappyServer.Lib.Traced
import HappyServer.Serialize.Value
import HappyServer.Serialize.Pack
import HappyServer.Serialize.BufferView
import HappyServer.Serialize.Unpack
import HappyServer.Serialize.ReadBack
import HappyServer.Serialize.Tables
import HappyServer.Serialize.RoundTrip
import HappyServer.Serialize.Scan
import HappyServer.Serialize.Decoding
import HappyServer.Serialize.Headers
import HappyServer.Serialize.Untrusted
import HappyServer.Buffer.Buffer
import HappyServer.Buffer.Space
import HappyServer.Buffer.Queue
import HappyServer.Buffer.Steady
import HappyServer.Buffer.Memcpy
import HappyServer.Buffer.Moves
import HappyServer.Buffer.Positions
import HappyServer.Serialize.Stream
import HappyServer.Server.Message
import HappyServer.Server.Handling
import HappyServer.Server.Formatting
import HappyServer.Server.Broadcast
import HappyServer.Server.Isolation
import HappyServer.Services.Worker
import HappyServer.Services.Creation
import HappyServer.Services.Registry
import HappyServer.Services.LifeCycle
import HappyServer.Lib.Tally
import HappyServer.Common.RwLock
import HappyServer.Lib.Extent
import HappyServer.Services.LuaAlloc
import HappyServer.Timer.Batching
import HappyServer.Server.Reports
import HappyServer.Lib.Subst
import HappyServer.Lib.Json
import HappyServer.Config.Replace
import HappyServer.Config.Prepare
import HappyServer.Config.Parse
import HappyServer.Lib.JsonReader
import HappyServer.Common.LogLine
import HappyServer.Common.Logger
import HappyServer.Services.Station
import HappyServer.Services.Host
import HappyServer.Services.Shutdown
import HappyServer.Services.Start
import HappyServer.Services.Placement
import HappyServer.Services.Startup
import HappyServer.Services.Ids
import HappyServer.Timer.Durations
import HappyServer.Serialize.LongStrings
import HappyServer.Serialize.Work
import HappyServer.Lib.Slots
import HappyServer.Serialize.LuaStack
import HappyServer.Serialize.StackDiscipline
import HappyServer.Serialize.Acceptance
import HappyServer.Serialize.Copies
import HappyServer.Serialize.Metapairs
import HappyServer.Lib.Smear
import HappyServer.Buffer.Rounding
import HappyServer.Lib.Writes
import HappyServer.Common.Digits
import HappyServer.Common.Hexstr
import HappyServer.Serialize.Concat
import HappyServer.Serialize.UnpackStack
import HappyServer.Serialize.UnpackRuns
import HappyServer.Serialize.StackFrames
import HappyServer.Serialize.Streaming
import HappyServer.Lib.Refines
import HappyServer.Lib.Guarded
import HappyServer.Common.Locks
import HappyServer.Common.ConcurrentMap
import HappyServer.Services.UniqueNames
import HappyServer.Common.ConcurrentQueue
import HappyServer.Common.ObjectPool
import HappyServer.Services.Updates
import HappyServer.Services.Pacing
import HappyServer.Services.Stopping
import HappyServer.Timer.Departed
import HappyServer.Config.Main
import HappyServer.Common.Decimal
import HappyServer.Common.Header
import HappyServer.Server.Channel
import HappyServer.Config.Path
