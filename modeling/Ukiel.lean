import Ukiel.Lib.Lts
import Ukiel.Lib.Lists
import Ukiel.Lib.PrefixCode
import Ukiel.Lib.LittleEndian
import Ukiel.Lib.Stretch
import Ukiel.Core.Json
import Ukiel.Core.Types
import Ukiel.Core.Operation
import Ukiel.Core.OffsetRanges
import Ukiel.Catalog.Tables
import Ukiel.Catalog.Sequential
import Ukiel.Catalog.Locks
import Ukiel.Catalog.Leases
import Ukiel.Catalog.Machine
import Ukiel.Catalog.Invariant
import Ukiel.Catalog.Isolation
import Ukiel.Catalog.Calls
import Ukiel.Catalog.Operations
import Ukiel.Catalog.Feed
import Ukiel.Catalog.Tenancies
import Ukiel.Catalog.Offsets
import Ukiel.Catalog.Lifetimes
import Ukiel.Catalog.Replay
import Ukiel.Gc.World
import Ukiel.Gc.Sweep
import Ukiel.Gc.Reconcile
import Ukiel.Compactor.Rows
import Ukiel.Compactor.Conservation
import Ukiel.Ingest.Consumer
import Ukiel.Ingest.World
import Ukiel.Ingest.Ledger
import Ukiel.Ingest.Invariant
import Ukiel.Ingest.ExactlyOnce
import Ukiel.Catalog.Pipelines
import Ukiel.Gc.Readers
import Ukiel.Gc.Reap
import Ukiel.Core.Identity
import Ukiel.Mv.World
import Ukiel.Mv.Invariant
import Ukiel.Mv.ExactlyOnce
import Ukiel.Gc.Writers
import Ukiel.Gc.Tracking
import Ukiel.Cache.Disk
import Ukiel.Cache.Accounting
import Ukiel.Cache.Store
import Ukiel.Cache.Files
import Ukiel.Cache.Requests
import Ukiel.Cache.Transparency
import Ukiel.Cache.Recovery
import Ukiel.Cache.Names
import Ukiel.Core.Schema
import Ukiel.Core.Batch
import Ukiel.Core.Sorting
import Ukiel.Expr.Defaults
import Ukiel.Expr.DefaultsFirst
import Ukiel.Lib.StableMerge
import Ukiel.Cache.Pins
import Ukiel.Lib.Graphs
import Ukiel.Catalog.Registry
import Ukiel.Mv.Fleet
import Ukiel.Lib.Carry
import Ukiel.Daemon.Config
import Ukiel.Compactor.Ladder
import Ukiel.Compactor.Rewrite
import Ukiel.Compactor.Merge
import Ukiel.Core.Stats
import Ukiel.Compactor.ChunkWriter
import Ukiel.Write.L0
import Ukiel.Ingest.Writer
import Ukiel.Daemon.Health
import Ukiel.Daemon.Supervisor
import Ukiel.Core.KeyFilter
import Ukiel.Lib.Skips
import Ukiel.Query.Pruning
import Ukiel.Query.Runs
import Ukiel.Query.Scan
import Ukiel.Query.Unpruned
import Ukiel.Compactor.Exchange
import Ukiel.Compactor.Finalizer
import Ukiel.Compactor.Gauges
import Ukiel.Query.Lake
import Ukiel.Query.Erasure
import Ukiel.Query.Ranges
import Ukiel.Ingest.EventTime
import Ukiel.Ingest.Flush
import Ukiel.Ingest.Loop
import Ukiel.Ingest.Pressure
import Ukiel.Ingest.Relief
import Ukiel.Lib.Grouping
import Ukiel.Lib.Rotation
import Ukiel.Catalog.Candidates
import Ukiel.Compactor.Sweeps
import Ukiel.Core.Jsonb
import Ukiel.Write.Partitions
import Ukiel.Compactor.Deletion
import Ukiel.Compactor.PartMetadata
import Ukiel.Core.PartStats
import Ukiel.Integrity.RowMultiset
import Ukiel.SkipIndex.Sidecar
import Ukiel.SkipIndex.Soundness
import Ukiel.Lib.Bipartite
import Ukiel.Synth.Rng
import Ukiel.Synth.Topology
import Ukiel.Synth.Realize
import Ukiel.Lib.Programs
import Ukiel.Catalog.Definitions
import Ukiel.Catalog.Callers
import Ukiel.Daemon.Bootstrap
import Ukiel.Query.Session
import Ukiel.Lib.Lru
import Ukiel.Query.MetadataCache
