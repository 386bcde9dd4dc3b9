import CedarGraph.Cdc.TornAppend
import CedarGraph.Compaction.Blob
import CedarGraph.Compaction.CompactAll
import CedarGraph.Compaction.Exclusive
import CedarGraph.Compaction.MergerV2
import CedarGraph.Compaction.Unreadable
import CedarGraph.Dtx.Clock
import CedarGraph.Dtx.IntervalQueries
import CedarGraph.Dtx.Reporting
import CedarGraph.Dtx.SameRange
import CedarGraph.Dtx.VersionIndex
import CedarGraph.Dtx.WaitForGraph
import CedarGraph.Dtx.WriteWrite
import CedarGraph.Engine.FlushFailure
import CedarGraph.Gcn.HashRing
import CedarGraph.Gcn.Mirror
import CedarGraph.Gcn.Ready
import CedarGraph.Gcn.Traverse
import CedarGraph.Manifest.Levels
import CedarGraph.Manifest.Torn
import CedarGraph.Partition.CatchUp
import CedarGraph.Partition.Publication
import CedarGraph.Partition.Write
import CedarGraph.Partition.WriteLocks
import CedarGraph.Sst.Lookup
import CedarGraph.Txn.Lifecycle
import CedarGraph.Txn.LostUpdate
import CedarGraph.Txn.Recovery
import CedarGraph.Txn.Rotation
import CedarGraph.Txn.Snapshot
import CedarGraph.VersionChain
