import TopcDB.Chunkenc.Recompact
import TopcDB.Chunkenc.Reopen
import TopcDB.Chunkenc.NoReader
import TopcDB.Chunkenc.Damaged
import TopcDB.Storage.Targets
import TopcDB.Storage.ClChunks
import TopcDB.Tsdb.IterableCollects
import TopcDB.Storage.ChainCalls
import TopcDB.Storage.FromSamples
import TopcDB.Storage.MergeSets
import TopcDB.Storage.MergeLabels
import TopcDB.Tsdb.HeadIterator
import TopcDB.Tsdb.Appendable
import TopcDB.Tsdb.MixedTypes
import TopcDB.Tsdb.WalRefs
import TopcDB.Tsdb.HeadDelete
import TopcDB.Tsdb.Matchers
import TopcDB.Wlog.Torn
import TopcDB.Wlog.SegmentSize
import TopcDB.Tsdb.WalTruncation
import TopcDB.Tsdb.CompactConverges
import TopcDB.Tsdb.PostingsDelete
import TopcDB.Tsdb.QuerierTruncation
import TopcDB.Tsdb.HeadErrorBound
