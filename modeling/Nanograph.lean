import Nanograph.BTree.Scan
import Nanograph.BTree.Persistence
import Nanograph.BTree.Isolation
import Nanograph.BTree.Occupancy
import Nanograph.Mvcc.Interleaving
import Nanograph.Lsm.Order
import Nanograph.Lsm.Scan
import Nanograph.Lsm.Reader
import Nanograph.Lsm.MergeOrder
import Nanograph.Lsm.Tombstones
import Nanograph.Lsm.Unreadable
import Nanograph.Lsm.FailedCommit
import Nanograph.Lsm.BlockCache
import Nanograph.Lsm.Blocks
import Nanograph.Wal.Torn
import Nanograph.Wal.Positions
import Nanograph.Art.BranchMap
import Nanograph.Raft.LogStore
import Nanograph.Raft.Install
import Nanograph.Raft.AnyBytes
import Nanograph.Raft.Replay
import Nanograph.Kvm.Allocator
import Nanograph.Kvm.Distributed
import Nanograph.Kvm.SystemRecords
import Nanograph.Kvm.ResolverMove
import Nanograph.Idx.Scans
import Nanograph.Idx.Removal
import Nanograph.Idx.Sharing
import Nanograph.Idx.Documents
