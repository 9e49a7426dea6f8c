import ArbReth.Engine.Driver
import ArbReth.Lib.Reorder
import ArbReth.Engine.Reconcile
import ArbReth.Node.HandOff
import ArbReth.Lib.Worklist
import ArbReth.Engine.Produce
import ArbReth.Engine.BlockOrder
import ArbReth.Engine.DropRule
import ArbReth.L1.Reader
import ArbReth.Sync.L1Sync
import ArbReth.Sync.Coverage
import ArbReth.Sync.Numbering
import ArbReth.Sync.Checkpoints
import ArbReth.Sync.Boundaries
import ArbReth.Sync.Supervise
import ArbReth.Sync.LogOrder
import ArbReth.Derive.Batch
import ArbReth.Derive.Multiplexer
import ArbReth.L1.Assemble
import ArbReth.L1.Delayed
import ArbReth.L1.ForeignLogs
import ArbReth.L1.Resolve
import ArbReth.L1.DelayedCache
import ArbReth.L1.Inbox
import ArbReth.L1.Derive
import ArbReth.L1.Windows
import ArbReth.Lib.UndoLog
import ArbReth.Storage.Batch
import ArbReth.Storage.Preimages
import ArbReth.Storage.Unwind
import ArbReth.Storage.Completeness
import ArbReth.Lib.Durable
import ArbReth.Recovery.Journal
import ArbReth.Recovery.Recover
import ArbReth.Recovery.Verified
import ArbReth.Recovery.Invariant
import ArbReth.Recovery.CrashSafety
import ArbReth.Engine.Callbacks
import ArbReth.Node.DriveLoop
import ArbReth.Node.Settled
import ArbReth.Node.Fifo
import ArbReth.Node.IngressRun
import ArbReth.Node.Fairness
import ArbReth.Node.FiniteInput
import ArbReth.Snapshot.ResumePoint
import ArbReth.Lib.HashChain
import ArbReth.Recovery.Monitor
import ArbReth.Lib.Codec
import ArbReth.Snapshot.Stream
import ArbReth.Lib.Dense
import ArbReth.Snapshot.History
import ArbReth.Snapshot.Blocks
import ArbReth.Snapshot.Import
import ArbReth.Snapshot.Completion
import ArbReth.Snapshot.Launch
import ArbReth.Snapshot.Builder
import ArbReth.Snapshot.Export
import ArbReth.Recovery.Target
import ArbReth.Sync.Compaction
import ArbReth.Node.Feed
import ArbReth.L1.DelayedRequests
import ArbReth.L1.Reconstruct
import ArbReth.Derive.MultiplexerSpec
import ArbReth.Derive.Blob
import ArbReth.Storage.Proxy
import ArbReth.Engine.StateRoot
import ArbReth.L1.Endpoint
import ArbReth.Sync.Outages
import ArbReth.Lib.Events
import ArbReth.Node.FeedCursor
import ArbReth.Lib.Notify
import ArbReth.Node.FiniteCompletion
import ArbReth.Lib.Files
import ArbReth.Rewind.Layout
import ArbReth.Rewind.Migration
import ArbReth.Rewind.Order
import ArbReth.Snapshot.Accepted
import ArbReth.Lib.Grammar
import ArbReth.Snapshot.Grammar
import ArbReth.Snapshot.Language
import ArbReth.Derive.L2Message
import ArbReth.Node.MevTxLogs
import ArbReth.Sync.Redact
import ArbReth.Engine.Frontiers
import ArbReth.Node.Derived
