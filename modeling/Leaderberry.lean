import Leaderberry.Lib.Quorum
import Leaderberry.Lib.LockedVoting
import Leaderberry.Lib.Watermark
import Leaderberry.Types.Validator
import Leaderberry.Types.Commit
import Leaderberry.Engine.Tally
import Leaderberry.Engine.State
import Leaderberry.Engine.Lock
import Leaderberry.Engine.Unlock
import Leaderberry.Engine.Progress
import Leaderberry.Engine.Proposal
import Leaderberry.Engine.Certificate
import Leaderberry.Privval.DoubleSign
import Leaderberry.Network.Scenario
import Leaderberry.Network.Agreement
import Leaderberry.Network.SyncSafety
import Leaderberry.Network.Replication
import Leaderberry.Engine.Commit
import Leaderberry.Network.Decision
import Leaderberry.Engine.Chain
import Leaderberry.Engine.WriteAhead
import Leaderberry.Lib.RoundRobin
import Leaderberry.Types.Rotation
import Leaderberry.Engine.BlockSync
import Leaderberry.Engine.Content
import Leaderberry.Types.Account
import Leaderberry.Types.Delegation
import Leaderberry.Types.AuthorizationOrder
import Leaderberry.Lib.RecordStream
import Leaderberry.Wal.Codec
import Leaderberry.Wal.FileWAL
import Leaderberry.Wal.Layout
import Leaderberry.Wal.Log
import Leaderberry.Wal.RoundTrip
import Leaderberry.Wal.Search
import Leaderberry.Wal.Torn
import Leaderberry.Wal.Checkpoint
import Leaderberry.Wal.Retry
import Leaderberry.Wal.Lookup
import Leaderberry.Wal.Numbering
import Leaderberry.Engine.Replay
import Leaderberry.Engine.Report
import Leaderberry.Wal.Recovery
import Leaderberry.Engine.LockRecovery
import Leaderberry.Engine.Twin
import Leaderberry.Engine.Injection
import Leaderberry.Engine.Arrival
import Leaderberry.Lib.MerkleTree
import Leaderberry.Types.PartSet
import Leaderberry.Types.Reassembly
import Leaderberry.Types.Assembly
import Leaderberry.Types.HeaderBinding
import Leaderberry.Lib.LittleEndian
import Leaderberry.Types.PartBitmap
import Leaderberry.Types.Serialization
import Leaderberry.Lib.PrefixCode
import Leaderberry.Types.SignBytes
import Leaderberry.Engine.RequestLoop
import Leaderberry.Engine.SyncRun
import Leaderberry.Engine.SyncInvariant
import Leaderberry.Evidence.Pool
import Leaderberry.Evidence.Committed
import Leaderberry.Evidence.Offence
import Leaderberry.Lib.BucketSort
import Leaderberry.Evidence.Detection
import Leaderberry.Evidence.Pruning
import Leaderberry.Evidence.Accountability
import Leaderberry.Lib.FieldLoop
import Leaderberry.Types.Messages
import Leaderberry.Evidence.Honesty
import Leaderberry.Engine.Transport
import Leaderberry.Engine.EventLoop
import Leaderberry.Types.BlockTransfer
import Leaderberry.Engine.Firing
import Leaderberry.Engine.Observer
import Leaderberry.Engine.Nesting
import Leaderberry.Engine.OwnVote
import Leaderberry.Engine.Ending
import Leaderberry.Engine.ArrivalOrder
import Leaderberry.Lib.KeyedSort
import Leaderberry.Engine.VoteRun
import Leaderberry.Engine.MakeCommit
import Leaderberry.Engine.VoteOrder
import Leaderberry.Engine.LightCommit
import Leaderberry.Engine.HeightVotes
import Leaderberry.Types.PriorityBounds
import Leaderberry.Types.PowerArithmetic
import Leaderberry.Types.SetHash
import Leaderberry.Engine.ValidatorUpdates
import Leaderberry.Engine.SetRepresentation
import Leaderberry.Engine.PeerState
