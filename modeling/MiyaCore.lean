import MiyaCore.LinkRing
import MiyaCore.Bytes
import MiyaCore.Hoare
import MiyaCore.PageTable.AllocatorRuns
import MiyaCore.PageTable.CacheTable
import MiyaCore.Index.Lookup
import MiyaCore.Index.RootPersistence
import MiyaCore.Index.DeadSlots
import MiyaCore.Index.RecursiveMerge
import MiyaCore.SafeMode.Addresses
import MiyaCore.SafeMode.Isolation
import MiyaCore.SafeMode.Snapshot
import MiyaCore.Chain.Acceptance
import MiyaCore.Chain.BlockContainer
import MiyaCore.Chain.BlockLocalStrage
import MiyaCore.Chain.LightUTXOSet
import MiyaCore.Chain.PoolRuns
import MiyaCore.Chain.Merkle
import MiyaCore.Chain.Validation
import MiyaCore.Chain.Mining
import MiyaCore.Chain.HeaderTree
import MiyaCore.Stream.StreamBuffer
import MiyaCore.Database.Exchange
import MiyaCore.Chain.ScriptStack
import MiyaCore.Chain.ScriptBounds
import MiyaCore.Chain.Signing
import MiyaCore.Chain.Reverification
import MiyaCore.Chain.BlockReverification
import MiyaCore.Chain.LightVerification
import MiyaCore.Chain.CoinbaseCodec
import MiyaCore.PageTable.Deallocation
import MiyaCore.PageTable.Coalescing
import MiyaCore.PageTable.Clearing
import MiyaCore.ValueStore.FragmentHeader
import MiyaCore.ValueStore.ValueStoreManager
import MiyaCore.Chain.OutputRecords
import MiyaCore.Chain.UndoOutputs
import MiyaCore.Chain.Amounts
import MiyaCore.Chain.Mempool
import MiyaCore.Chain.LocalFileController
import MiyaCore.Chain.HeaderExport
import MiyaCore.Chain.HeadersMessage
import MiyaCore.Chain.BlockSync
import MiyaCore.Chain.BucketSplit
import MiyaCore.PageTable.PointerArithmetic
import MiyaCore.PageTable.Searches
import MiyaCore.Database.Existence
import MiyaCore.Database.WireValues
import MiyaCore.Index.Levels
import MiyaCore.SafeMode.Table
import MiyaCore.Ekp2p.Receiver
import MiyaCore.Database.Linearization
import MiyaCore.Chain.BlockRelease
import MiyaCore.SafeMode.PagedEngine
import MiyaCore.Index.NodeLoops
import MiyaCore.Chain.HeaderReplay
import MiyaCore.Chain.LightVerification
