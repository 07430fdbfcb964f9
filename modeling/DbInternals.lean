import DbInternals.Storage.SlottedRefine
import DbInternals.Storage.InsertRecord
import DbInternals.Utils.Crc32c
import DbInternals.Logging.LogStream
import DbInternals.Logging.Checkpoint
import DbInternals.Storage.DiskManager
import DbInternals.Index.BPlusTree
import DbInternals.Core.Search
import DbInternals.Core.Hoare
import DbInternals.Storage.DiskPages
import DbInternals.Storage.SchedulerOrder
import DbInternals.Index.PageKeys
import DbInternals.Index.TreeModel
import DbInternals.Storage.FreeList
import DbInternals.Storage.Addressing
import DbInternals.Storage.AllocatorCrash
import DbInternals.Index.TreeCalls
import DbInternals.Index.Lookups
import DbInternals.Buffer.ArcFrames
import DbInternals.Buffer.ArcGhosts
import DbInternals.Buffer.LostFrames
import DbInternals.Buffer.PageLife
import DbInternals.Buffer.GuardTickets
import DbInternals.Buffer.PinCounts
import DbInternals.Buffer.Coherence
import DbInternals.Buffer.PoolRaces
import DbInternals.Index.UniqueKeys
import DbInternals.Index.SplitCrash
import DbInternals.Types.Tuple
import DbInternals.Index.FindPath
import DbInternals.Index.SplitKeeps
import DbInternals.Index.ScanExact
import DbInternals.Storage.CompactTwice
import DbInternals.Storage.SpaceChecks
import DbInternals.Storage.SlotReuse
import DbInternals.Storage.UpdateRecord
import DbInternals.Index.LeafOrder
import DbInternals.Index.ShortKeys
import DbInternals.Index.PivotWalk
import DbInternals.Index.RootSeparators
import DbInternals.Index.KeyExtraction
import DbInternals.Index.ScanRuns
import DbInternals.Index.SeekLoop
import DbInternals.Types.Projection
import DbInternals.Utils.CrcBursts
import DbInternals.Logging.BurstErrors
import DbInternals.Buffer.ArcTarget
import DbInternals.Buffer.ArcHistory
import DbInternals.Buffer.FailedFlush
import DbInternals.Buffer.FlushInPlace
import DbInternals.Storage.TornWrites
import DbInternals.Index.TreeBalance
import DbInternals.Index.TreeTable
import DbInternals.Logging.FlushProgress
import DbInternals.Storage.PageStore
import DbInternals.Buffer.WriteBack
import DbInternals.Buffer.DryPool
import DbInternals.Buffer.ScanResistance
import DbInternals.Index.TreeGrowth
import DbInternals.Storage.ScheduledPages
