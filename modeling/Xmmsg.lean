import Xmmsg.Calls
import Xmmsg.Domains
import Xmmsg.InProc.Accounting
import Xmmsg.InProc.Calls
import Xmmsg.InProc.Carry
import Xmmsg.InProc.Census
import Xmmsg.InProc.Connected
import Xmmsg.InProc.Cores
import Xmmsg.InProc.Counters
import Xmmsg.InProc.Delivery
import Xmmsg.InProc.Fanout
import Xmmsg.InProc.Isolation
import Xmmsg.InProc.Join
import Xmmsg.InProc.Order
import Xmmsg.InProc.Pipeline
import Xmmsg.InProc.Progress
import Xmmsg.InProc.Queue
import Xmmsg.InProc.Registry
import Xmmsg.InProc.Shared
import Xmmsg.InProc.Steps
import Xmmsg.InProc.Whole
import Xmmsg.InProc.Wiring
import Xmmsg.Lineage
import Xmmsg.Loans
import Xmmsg.Mail.Box
import Xmmsg.Mail.Ledger
import Xmmsg.Reach.Apart
import Xmmsg.Reach.Domain
import Xmmsg.Reach.Mirror
import Xmmsg.Reach.Order
import Xmmsg.Reach.Topic
import Xmmsg.Record
import Xmmsg.Rpc.Agreement
import Xmmsg.Rpc.Custody
import Xmmsg.Rpc.Invariant
import Xmmsg.Rpc.Moves
import Xmmsg.Rpc.Progress
import Xmmsg.Rpc.Protocol
import Xmmsg.Rpc.Refine
import Xmmsg.Rpc.Requests
import Xmmsg.Rpc.Steps
import Xmmsg.Schema.Describe
import Xmmsg.Schema.Hash
import Xmmsg.Schema.Tiling
import Xmmsg.Shm.Accounting
import Xmmsg.Shm.Calls
import Xmmsg.Shm.Clean
import Xmmsg.Shm.Counters
import Xmmsg.Shm.Delivery
import Xmmsg.Shm.Discovery
import Xmmsg.Shm.Introspect
import Xmmsg.Shm.Join
import Xmmsg.Shm.Layout
import Xmmsg.Shm.NameRule
import Xmmsg.Shm.Names
import Xmmsg.Shm.Observer
import Xmmsg.Shm.Opening
import Xmmsg.Shm.Owner
import Xmmsg.Shm.Progress
import Xmmsg.Shm.Reclaim
import Xmmsg.Shm.Region
import Xmmsg.Shm.Reliability
import Xmmsg.Shm.Rendezvous
import Xmmsg.Shm.Report
import Xmmsg.Shm.Resolve
import Xmmsg.Shm.Restart
import Xmmsg.Shm.Rings
import Xmmsg.Shm.Segment
import Xmmsg.Shm.Slots
import Xmmsg.Shm.Snapshot
import Xmmsg.Shm.Solo
import Xmmsg.Shm.Staying
import Xmmsg.Shm.Steps
import Xmmsg.Shm.Survival
import Xmmsg.Shm.Takes
import Xmmsg.Shm.Whole
import Xmmsg.Sys.Align
import Xmmsg.Sys.Derivation
import Xmmsg.Sys.Edges
import Xmmsg.Sys.Fifo
import Xmmsg.Sys.Json
import Xmmsg.Sys.Machine
import Xmmsg.Sys.Ownership
import Xmmsg.Sys.Progress
import Xmmsg.Sys.Script
import Xmmsg.Sys.Seqlock
import Xmmsg.Sys.Shared
import Xmmsg.Sys.Text
import Xmmsg.Sys.Tiling
import Xmmsg.Sys.Whole
import Xmmsg.Waits
import Xmmsg.WarmStart
