import FlashDriver.Core.LTS
import FlashDriver.Core.MaxHeap
import FlashDriver.DataStruct.Heap
import FlashDriver.BlockManager.Base
import FlashDriver.BlockManager.Spec
import FlashDriver.BlockManager.Ownership
import FlashDriver.PageFtl.Model
import FlashDriver.PageFtl.Mapping
import FlashDriver.Interface.Queue
import FlashDriver.Interface.Order
import FlashDriver.Demand.Cache
import FlashDriver.Demand.System
import FlashDriver.Demand.WriteBack
import FlashDriver.Demand.Places
import FlashDriver.Demand.Waiting
import FlashDriver.Demand.Stranded
import FlashDriver.Core.Probing
import FlashDriver.Demand.Probe
import FlashDriver.Demand.Addressing
import FlashDriver.Demand.Lookup
import FlashDriver.Lsmtree.Bloom
import FlashDriver.Lsmtree.Leveling
import FlashDriver.Lsmtree.Coverage
import FlashDriver.BlockManager.Ledger
import FlashDriver.Core.Bytes
import FlashDriver.BlockManager.Numbering
import FlashDriver.Lsmtree.Page
import FlashDriver.Lsmtree.Table
import FlashDriver.Lsmtree.Pipe
import FlashDriver.Lsmtree.PipeMerger
import FlashDriver.Lsmtree.HwMerge
import FlashDriver.Interface.Flying
import FlashDriver.Interface.Index
import FlashDriver.BlockManager.BadBlock
import FlashDriver.BlockManager.Pairing
import FlashDriver.Lsmtree.DataCache
import FlashDriver.Lsmtree.HeaderPage
import FlashDriver.Lsmtree.Find
import FlashDriver.Lsmtree.HeaderCheck
import FlashDriver.Lsmtree.HeaderLoop
import FlashDriver.Core.Packing
import FlashDriver.Lsmtree.Variable
import FlashDriver.Lsmtree.Repack
import FlashDriver.Lsmtree.DataGc
import FlashDriver.Demand.Grain
import FlashDriver.Lsmtree.Value2Page
import FlashDriver.Lsmtree.DataPartition
import FlashDriver.Core.NextFit
import FlashDriver.Lsmtree.MergeSize
import FlashDriver.Core.SkipChain
import FlashDriver.Lsmtree.Skiplist
import FlashDriver.Lsmtree.Divide
import FlashDriver.Lsmtree.Cutting
import FlashDriver.Lsmtree.CompactionQueue
import FlashDriver.Lsmtree.SkiplistRuns
import FlashDriver.Core.BackMap
import FlashDriver.Lsmtree.MapPartition
import FlashDriver.Demand.TransPage
import FlashDriver.Lsmtree.HeaderGc
import FlashDriver.Core.DList
import FlashDriver.Lsmtree.HeaderCache
import FlashDriver.Lsmtree.PageSearch
import FlashDriver.BlockManager.InvalidCount
import FlashDriver.BlockManager.VictimHeap
import FlashDriver.Demand.FineCache
import FlashDriver.Core.QuadraticProbe
import FlashDriver.Demand.ProbeReach
import FlashDriver.Core.Selection
import FlashDriver.Interface.AppKey
import FlashDriver.Lsmtree.RangeGet
import FlashDriver.Lsmtree.RangeQuery
import FlashDriver.Lsmtree.PointGet
import FlashDriver.Lsmtree.KeyOrder
import FlashDriver.Core.Mixing
import FlashDriver.Lsmtree.BloomBytes
import FlashDriver.DataStruct.HashKv
import FlashDriver.DataStruct.HeapPtr
import FlashDriver.DataStruct.LruList
import FlashDriver.Lower.Posix
import FlashDriver.Lsmtree.RunSelect
import FlashDriver.FlashSock.Redis
import FlashDriver.FlashSock.Transfer
