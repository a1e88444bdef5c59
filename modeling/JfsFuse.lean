import JfsFuse.Lib.Bytes
import JfsFuse.Lib.Memory
import JfsFuse.Lib.Program
import JfsFuse.Types
import JfsFuse.Btree.Dtree
import JfsFuse.Btree.DtreeSlots
import JfsFuse.Btree.DtreeRefinement
import JfsFuse.Storage
import JfsFuse.Journal.Record
import JfsFuse.Journal.LogManager
import JfsFuse.Journal.Recovery
import JfsFuse.Journal.Replay
import JfsFuse.Journal.NewestImage
import JfsFuse.Journal.Scan
import JfsFuse.Journal.CommittedOnly
import JfsFuse.Journal.Restart
import JfsFuse.Journal.RoundTrip
import JfsFuse.Alloc.Dmap
import JfsFuse.Mkfs
import JfsFuse.Alloc.Persistence
import JfsFuse.Lib.Lru
import JfsFuse.PageCache
import JfsFuse.Volume.Core
import JfsFuse.Volume.CacheCopies
import JfsFuse.Volume.CommitFrame
import JfsFuse.Journal.Calls
import JfsFuse.Journal.Layout
import JfsFuse.Journal.Area
import JfsFuse.Volume.CommitCalls
import JfsFuse.Volume.WriteAhead
import JfsFuse.Volume.FailedCommit
import JfsFuse.Journal.CutOff
import JfsFuse.Journal.TornWrite
import JfsFuse.Btree.Xtree
import JfsFuse.Volume.CommitEffect
import JfsFuse.Volume.CopyLineage
import JfsFuse.Volume.LostUpdate
import JfsFuse.Volume.Inode
import JfsFuse.Volume.Namespace
import JfsFuse.Volume.File
import JfsFuse.Volume.Xattr
import JfsFuse.Volume.BodySteps
import JfsFuse.Volume.OpenTransaction
import JfsFuse.Volume.Operations
import JfsFuse.Volume.Mount
import JfsFuse.Volume.RefusedCall
import JfsFuse.Volume.Table
import JfsFuse.Lib.Runs
import JfsFuse.Btree.XtreeMapping
import JfsFuse.Btree.XtreeCuts
import JfsFuse.Alloc.FirstFit
import JfsFuse.Alloc.FreshMap
import JfsFuse.Alloc.Rollback
import JfsFuse.Alloc.Tracking
import JfsFuse.Btree.DtreeRemove
import JfsFuse.Btree.DtreeSafety
import JfsFuse.Btree.XtreeCapacity
import JfsFuse.Btree.XtreeInsert
import JfsFuse.Btree.XtreePunch
import JfsFuse.Btree.XtreeRead
import JfsFuse.Btree.XtreeTotal
import JfsFuse.Fuse.Core
import JfsFuse.Fuse.FileRead
import JfsFuse.Fuse.Locks
import JfsFuse.Fuse.Lookup
import JfsFuse.Fuse.NameCalls
import JfsFuse.Fuse.PunchHole
import JfsFuse.Fuse.Seek
import JfsFuse.Volume.CacheCalls
import JfsFuse.Volume.Discard
import JfsFuse.Volume.FlushAll
import JfsFuse.Volume.RefusedRuns
import JfsFuse.Btree.XtreeSplit
import JfsFuse.Fuse.LockRanges
import JfsFuse.Fuse.XattrNames
import JfsFuse.Journal.Forward
import JfsFuse.Journal.NoRedo
import JfsFuse.Volume.LogSuperblock
import JfsFuse.Btree.Packed
import JfsFuse.Btree.XtreeChecked
import JfsFuse.Consistency
import JfsFuse.Volume.SlotInvariant
import JfsFuse.Volume.AttributeFlags
import JfsFuse.Volume.RunSteps
import JfsFuse.Volume.TableBlocks
import JfsFuse.Volume.UnionArea
import JfsFuse.Btree.XtreeInterrupt
import JfsFuse.Fuse.Bmap
import JfsFuse.Fuse.Handles
import JfsFuse.Fuse.LockQueries
import JfsFuse.Fuse.Nodes
import JfsFuse.Lib.Pieces
import JfsFuse.PositionalIo
import JfsFuse.Volume.KeptBlocks
import JfsFuse.Volume.OtherFiles
import JfsFuse.Volume.OtherNames
import JfsFuse.Fuse.Sessions
