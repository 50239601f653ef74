import Heraclitus.Lib.Fallible
import Heraclitus.Lib.FirstKey
import Heraclitus.Lib.SortedMap
import Heraclitus.Lib.Run
import Heraclitus.Lib.Slots
import Heraclitus.Lib.LittleEndian
import Heraclitus.Lib.Pieces
import Heraclitus.Lib.Ranked
import Heraclitus.Lib.F64
import Heraclitus.Lib.Prog
import Heraclitus.Core
import Heraclitus.Runtime
import Heraclitus.Episode
import Heraclitus.LogSpec
import Heraclitus.Hlc
import Heraclitus.Gc
import Heraclitus.GcApply
import Heraclitus.AttrIndex
import Heraclitus.AttrRange
import Heraclitus.Idempotency
import Heraclitus.IdempotencyOnce
import Heraclitus.Views
import Heraclitus.ViewsReplay
import Heraclitus.Query
import Heraclitus.QueryAccess
import Heraclitus.QueryReach
import Heraclitus.QueryWindow
import Heraclitus.TemporalGraph
import Heraclitus.TemporalAsOf
import Heraclitus.Consensus
import Heraclitus.ConsensusRun
import Heraclitus.Encryption
import Heraclitus.EncryptionRun
import Heraclitus.Format
import Heraclitus.LegacyLog
import Heraclitus.LegacyLogRead
import Heraclitus.LegacyLogRun
import Heraclitus.LegacyAsOf
import Heraclitus.LegacyReplicated
import Heraclitus.LegacyOpen
import Heraclitus.LegacyRecovery
import Heraclitus.LegacyClock
import Heraclitus.V6Clock
import Heraclitus.V6Format
import Heraclitus.V6Merkle
import Heraclitus.V6Raw
import Heraclitus.V6Resume
import Heraclitus.V6Verify
import Heraclitus.V6Writer
import Heraclitus.V6Manifest
import Heraclitus.V6Engine
import Heraclitus.V6Open
import Heraclitus.V6Segment
import Heraclitus.V6Catalogue
import Heraclitus.V6Disk
import Heraclitus.V6Steps
import Heraclitus.V6Seal
import Heraclitus.V6Append
import Heraclitus.V6Pack
import Heraclitus.V6Calls
import Heraclitus.V6Recovery
import Heraclitus.V6Crash
import Heraclitus.V6Reopen
import Heraclitus.V6Faults
import Heraclitus.V6Generations
import Heraclitus.FileRaftLog
import Heraclitus.FileRaftLogRun
import Heraclitus.FileRaftLogDamage
import Heraclitus.LegacyVerify
import Heraclitus.LegacyResume
import Heraclitus.LegacySealed
import Heraclitus.Receipts
import Heraclitus.ColdTier
import Heraclitus.Lib.Reader
import Heraclitus.Lib.Window
import Heraclitus.V6Hrkm
import Heraclitus.V6ManifestStore
import Heraclitus.ColdCompact
import Heraclitus.EntityPartition
import Heraclitus.AttrOrder
import Heraclitus.TemporalRedelivery
import Heraclitus.Decide
import Heraclitus.SkipScan
import Heraclitus.LegacyWindows
import Heraclitus.TierTick
import Heraclitus.TierTickRun
import Heraclitus.TierTickCount
import Heraclitus.Vm
import Heraclitus.HvmLedger
import Heraclitus.Lib.HashTree
import Heraclitus.V6Proof
import Heraclitus.V6Block
import Heraclitus.V6Find
import Heraclitus.V6Packed
import Heraclitus.V6PackedFile
import Heraclitus.V6PackedRead
import Heraclitus.V6Prove
import Heraclitus.BTreePage
import Heraclitus.BTreeCodes
import Heraclitus.BTreeRoundTrip
import Heraclitus.V6Canonical
import Heraclitus.V6Changes
import Heraclitus.V6Exported
import Heraclitus.V6Legible
import Heraclitus.V6ManifestRun
import Heraclitus.Lib.Separator
import Heraclitus.EdgeIdentity
import Heraclitus.GraphIndex
import Heraclitus.TemporalAdjacency
import Heraclitus.EdgeQuery
import Heraclitus.Simulate
import Heraclitus.Lib.Search
import Heraclitus.ShortestPaths
import Heraclitus.Communities
import Heraclitus.NumericRange
import Heraclitus.AttrDiff
import Heraclitus.Lib.Bits
import Heraclitus.Compression
import Heraclitus.Lib.Table
import Heraclitus.Lib.Layout
import Heraclitus.AttrSnapshot
import Heraclitus.Lib.Extrema
import Heraclitus.Lib.TopK
import Heraclitus.TextIndex
import Heraclitus.Recall
import Heraclitus.RecallExact
import Heraclitus.Lib.Checked
import Heraclitus.CompressionChecks
import Heraclitus.Lib.Lookup
import Heraclitus.V6Directory
import Heraclitus.V6ManifestLookup
import Heraclitus.Lib.OddTree
import Heraclitus.LegacyMerkle
import Heraclitus.ReceiptsBinding
import Heraclitus.ColdBinding
import Heraclitus.Lib.Straightline
import Heraclitus.Ir
import Heraclitus.IrPasses
import Heraclitus.V6Repack
import Heraclitus.Lib.Division
import Heraclitus.Crc32c
import Heraclitus.V6VarintExact
import Heraclitus.Lib.Bitset
import Heraclitus.Lib.F64Quotient
import Heraclitus.Selection
import Heraclitus.Memtable
import Heraclitus.Jit
import Heraclitus.VectorLoad
import Heraclitus.GqlLowering
import Heraclitus.Lib.Counts
import Heraclitus.SnapshotManager
import Heraclitus.Subscribe
import Heraclitus.Lib.Sift
import Heraclitus.Lib.Grouping
import Heraclitus.Analytics
import Heraclitus.AnalyticsExact
import Heraclitus.AnalyticsGroups
import Heraclitus.AnalyticsRun
import Heraclitus.AnalyticsPlan
