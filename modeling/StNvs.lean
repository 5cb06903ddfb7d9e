import StNvs.Lib.Runs
import StNvs.Lib.DeltaQueue
import StNvs.Sched.Sleep
import StNvs.Sched.Model
import StNvs.Sched.SleepTimes
import StNvs.Sched.Moves
import StNvs.Sched.Threads
import StNvs.Sched.Invariant
import StNvs.Sched.Calls
import StNvs.Sched.Queues
import StNvs.Sched.Completion
import StNvs.Lib.History
import StNvs.Sched.History
import StNvs.Sched.Waits
import StNvs.Sched.Mutex
import StNvs.Sched.Cond
import StNvs.Sched.ReadyQueue
import StNvs.Db.Server
import StNvs.Db.Requests
import StNvs.Db.Replies
import StNvs.Lib.Links
import StNvs.LockFree.Model
import StNvs.LockFree.Chains
import StNvs.LockFree.Fifo
import StNvs.Lib.Holders
import StNvs.Io.Descriptors
import StNvs.Lib.Search
import StNvs.Sync.Parse
import StNvs.Sync.ReadInfo
import StNvs.Server.Proto
import StNvs.Server.Model
import StNvs.Server.Frames
import StNvs.Server.References
import StNvs.Server.Moves
import StNvs.Server.Counts
import StNvs.Server.Rights
import StNvs.Server.Sessions
import StNvs.Server.Messages
import StNvs.Server.Steps
import StNvs.Server.Registry
import StNvs.Server.Notify
import StNvs.Server.Parting
import StNvs.Server.Viewers
import StNvs.Server.Delivery
import StNvs.Server.Uses
import StNvs.Server.Leaks
import StNvs.Sched.Keys
import StNvs.Sched.Lives
import StNvs.Sched.Joining
import StNvs.Lib.Circular
import StNvs.Sched.Stk
import StNvs.Sched.Stacks
import StNvs.Sched.Touches
import StNvs.Sched.Sleepers
import StNvs.Sched.Usleep
import StNvs.Sched.IoResults
import StNvs.Server.Touches
import StNvs.Server.Late
import StNvs.Server.Bodies
import StNvs.Io.ReadFully
import StNvs.Io.Writev
import StNvs.LockFree.Calls
import StNvs.Db.Lifetime
import StNvs.Db.Shutdown
import StNvs.Db.Connection
import StNvs.Server.Handshake
import StNvs.Sync.Packet
import StNvs.Lib.Quoted
import StNvs.Sync.Statements
import StNvs.Lib.Programs
import StNvs.Sync.Database
import StNvs.Sync.Session
import StNvs.Sync.Accounts
import StNvs.Sync.Lookups
import StNvs.Lib.Refinement
import StNvs.Lib.AtomicQueue
import StNvs.LockFree.Linear
import StNvs.Sched.Dispatch
import StNvs.Lib.Outcomes
import StNvs.Xml.Chars
import StNvs.Xml.Texts
import StNvs.Xml.Location
import StNvs.Xml.Nodes
import StNvs.Xml.Bounds
import StNvs.Xml.RoundTrip
import StNvs.Xml.Stable
import StNvs.Xml.Service
