import Kovanica.Lib.Word
import Kovanica.Lib.Limbs
import Kovanica.Lib.Collections
import Kovanica.Lib.Ancestry
import Kovanica.Lib.Forest
import Kovanica.Lib.Walk
import Kovanica.Lib.IntervalTree
import Kovanica.Lib.Codec
import Kovanica.Lib.Utf8
import Kovanica.Lib.Frames
import Kovanica.Lib.Prefix
import Kovanica.Lib.Cursor
import Kovanica.Lib.File
import Kovanica.Lib.Tokens
import Kovanica.Lib.Flood
import Kovanica.Lib.Discovery
import Kovanica.Lib.Cluster
import Kovanica.Lib.Blake3
import Kovanica.Lib.Compression
import Kovanica.Lib.Orbit
import Kovanica.Lib.Text
import Kovanica.Runtime
import Kovanica.Dag.Block
import Kovanica.State.Tx
import Kovanica.State.Payload
import Kovanica.State.Identity
import Kovanica.Reference
import Kovanica.Dag.Difficulty
import Kovanica.Dag.Pow
import Kovanica.Dag.Target
import Kovanica.Dag.Reachability
import Kovanica.Dag.View
import Kovanica.Dag.Ghostdag
import Kovanica.Dag.Ordering
import Kovanica.State.Apply
import Kovanica.State.Validation
import Kovanica.State.Ledger
import Kovanica.Dag.Layout
import Kovanica.Dag.Oracle
import Kovanica.Dag.Past
import Kovanica.Dag.Colouring
import Kovanica.Dag.WellFormed
import Kovanica.Dag.Reachable
import Kovanica.Dag.Labels
import Kovanica.Dag.Covering
import Kovanica.Dag.Agreement
import Kovanica.Dag.Order
import Kovanica.Dag.Build
import Kovanica.Dag.Samples
import Kovanica.Dag.Rate
import Kovanica.Dag.Linearization
import Kovanica.Dag.Snapshot
import Kovanica.Dag.Sorted
import Kovanica.Dag.Framing
import Kovanica.Dag.Tips
import Kovanica.Dag.Mergeset
import Kovanica.Dag.Cluster
import Kovanica.Dag.Overflow
import Kovanica.State.Replay
import Kovanica.State.Invariant
import Kovanica.State.Refinement
import Kovanica.State.Accounting
import Kovanica.State.Frame
import Kovanica.State.Structure
import Kovanica.State.Packing
import Kovanica.State.Payment
import Kovanica.State.History
import Kovanica.State.Finality
import Kovanica.State.Transfer
import Kovanica.State.Agreement
import Kovanica.State.Restore
import Kovanica.State.Assembly
import Kovanica.State.Balance
import Kovanica.State.Origin
import Kovanica.State.Emission
import Kovanica.State.Snapshot
import Kovanica.State.Readers
import Kovanica.State.Enforcement
import Kovanica.State.Store
import Kovanica.State.Torn
import Kovanica.State.Mirror
import Kovanica.Node.Mempool
import Kovanica.Node.Node
import Kovanica.Node.Net
import Kovanica.Node.P2p
import Kovanica.Node.Growth
import Kovanica.Node.Convergence
import Kovanica.Node.Frame
import Kovanica.Node.Overlay
import Kovanica.Node.Trace
import Kovanica.Node.Flood
import Kovanica.Node.Drain
import Kovanica.Node.Reachable
import Kovanica.Node.Wire
import Kovanica.Node.Relay
import Kovanica.Node.Idempotence
import Kovanica.Node.Wallet
import Kovanica.Node.Extend
import Kovanica.Node.Fees
import Kovanica.Node.Explorer
import Kovanica.Node.Production
import Kovanica.Node.Emission
import Kovanica.Node.Era
import Kovanica.Node.Sync
import Kovanica.Node.Text
import Kovanica.Node.Endings
import Kovanica.Node.Rpc
import Kovanica.Node.Twins
import Kovanica.Node.Serve
import Kovanica.Lib.Json
import Kovanica.Node.Api
import Kovanica.Node.Keeps
import Kovanica.Node.Service
import Kovanica.Node.Uptime
import Kovanica.Node.Retention
import Kovanica.Node.Admission
import Kovanica.Node.Answers
