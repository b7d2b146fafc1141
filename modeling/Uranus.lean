import Uranus.Lib.CommonPrefix
import Uranus.Lib.Lookup
import Uranus.Lib.KeyMap
import Uranus.Lib.FoldM
import Uranus.Lib.EStateRun
import Uranus.Lib.Panics
import Uranus.Lib.Lru
import Uranus.Lib.Quantile
import Uranus.Lib.Heap
import Uranus.Lib.Sorted
import Uranus.Utils.Types
import Uranus.Params.Config
import Uranus.Mtp.Encoding
import Uranus.Mtp.Node
import Uranus.Rlp.Encode
import Uranus.Rlp.Raw
import Uranus.Rlp.Codec
import Uranus.Rlp.Value
import Uranus.Rlp.Buffer
import Uranus.Rlp.Writer
import Uranus.Rlp.WriterSpec
import Uranus.Rlp.Stream
import Uranus.Rlp.Decoder
import Uranus.Rlp.Fuel
import Uranus.Rlp.RoundTrip
import Uranus.Types.Transaction
import Uranus.Types.TransactionRlp
import Uranus.Types.Block
import Uranus.Mtp.Decode
import Uranus.Mtp.Database
import Uranus.Mtp.Hasher
import Uranus.Mtp.Trie
import Uranus.Mtp.Canonical
import Uranus.Mtp.GetSpec
import Uranus.Mtp.InsertSpec
import Uranus.Mtp.DeleteSpec
import Uranus.Mtp.Shape
import Uranus.Mtp.Collapse
import Uranus.Mtp.NodeCodec
import Uranus.Mtp.Caches
import Uranus.Mtp.CacheWalks
import Uranus.Mtp.HasherSpec
import Uranus.Mtp.Run
import Uranus.Mtp.ProveSpec
import Uranus.Mtp.Unique
import Uranus.Mtp.Iterator
import Uranus.Lib.ListOrder
import Uranus.Mtp.IterWalk
import Uranus.Mtp.IterRun
import Uranus.Mtp.IterSpec
import Uranus.Mtp.LoadedSpec
import Uranus.Lib.AListSum
import Uranus.Mtp.Sync
import Uranus.Mtp.SyncSpec
import Uranus.Mtp.SyncOrder
import Uranus.Mtp.SyncComplete
import Uranus.Mtp.SyncRequests
import Uranus.Types.Log
import Uranus.State.Object
import Uranus.State.StateDB
import Uranus.State.Revert
import Uranus.State.Fresh
import Uranus.TxPool.Validate
import Uranus.Consensus.Dpos
import Uranus.Consensus.Confirm
import Uranus.Core.Validator
import Uranus.Consensus.Schedule
import Uranus.State.Live
import Uranus.Vm.Arith
import Uranus.Vm.Memory
import Uranus.Vm.Analysis
import Uranus.Core.Executor
import Uranus.Consensus.MintCnt
import Uranus.Consensus.MintCntTrie
import Uranus.Consensus.Elect
import Uranus.TxPool.Pool
import Uranus.P2p.Netutil
import Uranus.P2p.Table
import Uranus.Types.Sort
import Uranus.TxPool.SortedMap
import Uranus.TxPool.SortedMapSpec
