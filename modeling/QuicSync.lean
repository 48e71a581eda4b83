import QuicSync.Types
import QuicSync.Numeral.LittleEndian
import QuicSync.Numeral.Leb128
import QuicSync.Protocol.Messages
import QuicSync.Protocol.Varint
import QuicSync.Protocol.Codec
import QuicSync.Grammar.Parses
import QuicSync.Protocol.Format
import QuicSync.Protocol.RoundTrip
import QuicSync.Protocol.Decoder
import QuicSync.Posix.Calls
import QuicSync.Effect.Fallible
import QuicSync.Error
import QuicSync.Filesystem.Paths
import QuicSync.Filesystem.Staging
import QuicSync.Sync.Commit
import QuicSync.Posix.CallSpecs
import QuicSync.Sync.Confinement
import QuicSync.Sync.Planner
import QuicSync.Sync.Outcomes
import QuicSync.Sync.Replay
import QuicSync.Sync.Indexes
import QuicSync.Sync.Progress
import QuicSync.Sync.Visits
import QuicSync.Sync.Requesting
import QuicSync.Sync.Convergence
import QuicSync.Filesystem.Ignore
import QuicSync.Posix.Reads
import QuicSync.Filesystem.Scan
import QuicSync.Sync.Unmanaged
import QuicSync.Config
import QuicSync.Transport.Bounds
import QuicSync.Sync.PlanSpec
import QuicSync.Stream.Incremental
import QuicSync.Sync.Wire
import QuicSync.Filesystem.Regular
import QuicSync.Sync.Readers
import QuicSync.Sync.Transfer
import QuicSync.Sync.Fidelity
import QuicSync.Sync.Sending
import QuicSync.Sync.Exclusions
import QuicSync.Process.Tasks
import QuicSync.Sync.Jobs
import QuicSync.Sync.Destination
import QuicSync.Sync.Barrier
import QuicSync.Effect.Lockstep
import QuicSync.Sync.Determinism
import QuicSync.Sync.Completion
import QuicSync.Traversal.DepthFirst
import QuicSync.Sync.PlanRun
import QuicSync.Transport.Connection
import QuicSync.Sync.Source
import QuicSync.Sync.Serving
import QuicSync.Sync.Agreement
import QuicSync.Transport.Windows
import QuicSync.Effect.Never
import QuicSync.Sync.Usable
import QuicSync.Protocol.Bounded
import QuicSync.Sync.Interrupted
import QuicSync.Numeral.BigEndian
import QuicSync.Text.Utf8
import QuicSync.Numeral.Hex
import QuicSync.Auth.Der
import QuicSync.Auth.Fingerprint
import QuicSync.Auth.Certificate
import QuicSync.Auth.Store
import QuicSync.Filesystem.Scopes
import QuicSync.Filesystem.Scannable
import QuicSync.Filesystem.ScanSpec
import QuicSync.Filesystem.Excluded
import QuicSync.Rules.Layers
import QuicSync.Filesystem.GitRules
import QuicSync.Filesystem.Gates
import QuicSync.Traversal.Deferred
import QuicSync.Sync.Deferral
import QuicSync.Sync.CommitRule
import QuicSync.Sync.Atomicity
import QuicSync.Effect.Triple
import QuicSync.Sync.Cleanup
import QuicSync.Sync.Indexing
import QuicSync.Sync.EndToEnd
import QuicSync.Sync.Resync
import QuicSync.Effect.Distinct
import QuicSync.Config.Load
import QuicSync.Auth.Authorization
import QuicSync.Process.Shared
import QuicSync.Transport.Session
import QuicSync.Transport.Lifecycle
import QuicSync.Transport.Gate
import QuicSync.Sync.Termination
import QuicSync.Sync.Waits
import QuicSync.Sync.Ending
