import SlateDb.Lib.Transition
import SlateDb.Lib.Machine
import SlateDb.Lib.MergeFold
import SlateDb.Lib.SortedMap
import SlateDb.Lib.ListLex
import SlateDb.Lib.ByteCodec
import SlateDb.Types
import SlateDb.Resolution
import SlateDb.MergeOperator
import SlateDb.RetentionIterator
import SlateDb.MergeOperatorSpec
import SlateDb.RetentionSpec
import SlateDb.Compaction
import SlateDb.WriteBatch
import SlateDb.Reader
import SlateDb.ReaderSpec
import SlateDb.Db
import SlateDb.TransactionalObject
import SlateDb.Compactor
import SlateDb.TransactionManager
import SlateDb.TransactionConflicts
import SlateDb.RangeTracker
import SlateDb.DbSpec
import SlateDb.KeySpace
import SlateDb.SstBuilder
import SlateDb.Format.Buf
import SlateDb.Format.Row
import SlateDb.Format.Varint
import SlateDb.Format.RowCodecV2
import SlateDb.Format.Block
import SlateDb.Format.BlockIterator
import SlateDb.Lib.PriorityQueue
import SlateDb.MergeIterator
import SlateDb.MergeIteratorSpec
import SlateDb.Lib.SortedSearch
import SlateDb.Segments
import SlateDb.SegmentsSpec
import SlateDb.SegmentSelectionSpec
import SlateDb.Lib.BitStream
import SlateDb.Format.Bits
import SlateDb.SeqTracker
import SlateDb.SeqTrackerSpec
import SlateDb.MemTable
import SlateDb.MemTableSpec
import SlateDb.Filter
import SlateDb.FilterSpec
import SlateDb.CompactionScheduler
import SlateDb.CompactionSchedulerSpec
import SlateDb.Lib.ListBlock
import SlateDb.CompactorSpec
import SlateDb.ScheduledCompactor
import SlateDb.Format.BlockSpec
import SlateDb.ComparableRange
import SlateDb.SortedRunViews
import SlateDb.SortedRunViewsSpec
