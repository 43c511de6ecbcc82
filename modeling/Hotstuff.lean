import Hotstuff.Client.CmdCache
import Hotstuff.Client.Sender
import Hotstuff.Client.Server
import Hotstuff.Client.Wakeup
import Hotstuff.Consensus.Encoding
import Hotstuff.Consensus.Types
import Hotstuff.Crypto.AccessOrder
import Hotstuff.Crypto.Aggregate
import Hotstuff.Crypto.Base
import Hotstuff.Crypto.Bitfield
import Hotstuff.Crypto.Bls12
import Hotstuff.Crypto.Cache
import Hotstuff.Crypto.Created
import Hotstuff.Crypto.Ecdsa
import Hotstuff.Crypto.Implementations
import Hotstuff.Crypto.MessageSet
import Hotstuff.Crypto.SignatureBytes
import Hotstuff.Crypto.Threshold
import Hotstuff.Crypto.Total
import Hotstuff.Crypto.Transparency
import Hotstuff.EventLoop.Loop
import Hotstuff.EventLoop.Node
import Hotstuff.LeaderRotation.Carousel
import Hotstuff.LeaderRotation.Reputation
import Hotstuff.LeaderRotation.Total
import Hotstuff.Library.Bitmap
import Hotstuff.Library.Bytes
import Hotstuff.Library.Calls
import Hotstuff.Library.Cursors
import Hotstuff.Library.Framing
import Hotstuff.Library.History
import Hotstuff.Library.JsonArray
import Hotstuff.Library.LinkedList
import Hotstuff.Library.Lru
import Hotstuff.Library.Rendezvous
import Hotstuff.Library.SortedSlice
import Hotstuff.Library.Statistics
import Hotstuff.Library.Voting
import Hotstuff.Metrics.Grouping
import Hotstuff.Metrics.Logger
import Hotstuff.Metrics.Plotters
import Hotstuff.Metrics.Types
import Hotstuff.Metrics.Welford
import Hotstuff.Orchestration.Assign
import Hotstuff.Orchestration.Byzantine
import Hotstuff.Orchestration.Experiment
import Hotstuff.Orchestration.Protostream
import Hotstuff.Orchestration.Worker
import Hotstuff.Progress.Count
import Hotstuff.Progress.Follow
import Hotstuff.Progress.Fork
import Hotstuff.Progress.Handle
import Hotstuff.Progress.Lineage
import Hotstuff.Progress.Run
import Hotstuff.Progress.Skip
import Hotstuff.Progress.Timeout
import Hotstuff.Progress.View
import Hotstuff.Replica.Aggregates
import Hotstuff.Replica.Calls
import Hotstuff.Replica.Chain
import Hotstuff.Replica.Fetching
import Hotstuff.Replica.Frame
import Hotstuff.Replica.Handled
import Hotstuff.Replica.Handlers
import Hotstuff.Replica.HighQC
import Hotstuff.Replica.Leaf
import Hotstuff.Replica.Locks
import Hotstuff.Replica.Lookup
import Hotstuff.Replica.Pieces
import Hotstuff.Replica.Proposals
import Hotstuff.Replica.Record
import Hotstuff.Replica.Rows
import Hotstuff.Replica.Run
import Hotstuff.Replica.Steps
import Hotstuff.Replica.Strategy
import Hotstuff.Replica.Timeouts
import Hotstuff.Replica.Votes
import Hotstuff.Replica.Voting
import Hotstuff.Synchronizer.Measurements
import Hotstuff.Synchronizer.ViewDuration
import Hotstuff.System.Aggregates
import Hotstuff.System.Assumptions
import Hotstuff.System.Binding
import Hotstuff.System.Certificates
import Hotstuff.System.Execution
import Hotstuff.System.Fast
import Hotstuff.System.Forks
import Hotstuff.System.Locking
import Hotstuff.System.Pruning
import Hotstuff.System.Replay
import Hotstuff.System.Run
import Hotstuff.Wire.Convert
import Hotstuff.Wire.RoundTrip
import Hotstuff.Wire.Server
