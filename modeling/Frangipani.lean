import Frangipani.Transition.System
import Frangipani.Data.Map
import Frangipani.Data.OrderedMap
import Frangipani.Data.Sparse
import Frangipani.Data.Bytes
import Frangipani.Data.Frames
import Frangipani.Memory.Heap
import Frangipani.Memory.Counted
import Frangipani.Program.Effect
import Frangipani.Text.Stream
import Frangipani.Consensus.Voting
import Frangipani.Concurrency.Condition
import Frangipani.Concurrency.Locking
import Frangipani.Concurrency.Threads
import Frangipani.Concurrency.TwoPhase
import Frangipani.Concurrency.Backed
import Frangipani.Extent.Server
import Frangipani.Extent.Client
import Frangipani.Extent.Plain
import Frangipani.Extent.Sharing
import Frangipani.Extent.Sizes
import Frangipani.Extent.Removal
import Frangipani.Extent.Flush
import Frangipani.Lock.Server
import Frangipani.Lock.Ownership
import Frangipani.Lock.Waiting
import Frangipani.Lock.Client
import Frangipani.Lock.ClientPhase
import Frangipani.Lock.Transient
import Frangipani.Lock.Arrival
import Frangipani.Lock.Exclusion
import Frangipani.Lock.LateRevoke
import Frangipani.Lock.Plain
import Frangipani.Lock.Starved
import Frangipani.Paxos.Ballot
import Frangipani.Paxos.Acceptor
import Frangipani.Paxos.Log
import Frangipani.Paxos.Restart
import Frangipani.Paxos.Promise
import Frangipani.Paxos.History
import Frangipani.Paxos.Durable
import Frangipani.Paxos.Transfer
import Frangipani.Paxos.Network
import Frangipani.Paxos.Adopt
import Frangipani.Paxos.Validity
import Frangipani.Paxos.Votes
import Frangipani.Paxos.Agreement
import Frangipani.Paxos.Handlers
import Frangipani.Rpc.Window
import Frangipani.Rpc.Client
import Frangipani.Rpc.Server
import Frangipani.Rpc.Network
import Frangipani.Rpc.Stored
import Frangipani.Rpc.AtMostOnce
import Frangipani.Rpc.Acknowledged
import Frangipani.Rpc.Released
import Frangipani.Rpc.Marshall
import Frangipani.Rpc.Wire
import Frangipani.Rpc.Pdu
import Frangipani.Rpc.Growth
import Frangipani.Rpc.Reads
import Frangipani.Rpc.Connection
import Frangipani.Rpc.Framing
import Frangipani.Rpc.Bounds
import Frangipani.Rpc.Deadlines
import Frangipani.Rpc.Handles
import Frangipani.Rpc.Dispatch
import Frangipani.Rpc.References
import Frangipani.Rpc.Balance
import Frangipani.Rpc.Channel
import Frangipani.Rpc.Poll
import Frangipani.Rpc.PollMgr
import Frangipani.Rpc.Removal
import Frangipani.Rpc.Loop
import Frangipani.Rpc.Sending
import Frangipani.Rpc.Fifo
import Frangipani.Rpc.Pool
import Frangipani.Rsm.Config
import Frangipani.Rsm.Upcall
import Frangipani.Rsm.Propose
import Frangipani.Rsm.Holes
import Frangipani.Rsm.Primary
import Frangipani.Rsm.Ports
import Frangipani.Rsm.Cluster
import Frangipani.Rsm.Commits
import Frangipani.Rsm.Heartbeater
import Frangipani.Rsm.Assertions
import Frangipani.Rsm.Client
import Frangipani.Yfs.Directory
import Frangipani.Yfs.Names
import Frangipani.Yfs.Create
import Frangipani.Yfs.Files
import Frangipani.Yfs.Unlink
import Frangipani.Yfs.Inums
import Frangipani.Yfs.Operations
import Frangipani.Yfs.Lines
import Frangipani.Yfs.Locks
import Frangipani.Yfs.Shared
import Frangipani.Yfs.Contents
import Frangipani.Yfs.Limits
import Frangipani.Yfs.Serial
import Frangipani.Yfs.Mounted
import Frangipani.Yfs.Deadlock
import Frangipani.Fuse.Handlers
import Frangipani.Fuse.Replies
import Frangipani.Fuse.Read
import Frangipani.Fuse.Paging
