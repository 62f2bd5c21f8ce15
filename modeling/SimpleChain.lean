import SimpleChain.Lib.GoMap
import SimpleChain.Lib.GoSlice
import SimpleChain.Lib.Cyclic
import SimpleChain.Lib.Share
import SimpleChain.Lib.GoSort
import SimpleChain.Lib.Loop
import SimpleChain.Lib.Window
import SimpleChain.Lib.FirstMatch
import SimpleChain.Lib.Quorum
import SimpleChain.Lib.BigEndian
import SimpleChain.Lib.StateExcept
import SimpleChain.Dpos.Types
import SimpleChain.Dpos.SignerQueue
import SimpleChain.Dpos.Snapshot
import SimpleChain.Dpos.Run
import SimpleChain.Dpos.Tally
import SimpleChain.Dpos.Election
import SimpleChain.Dpos.Seal
import SimpleChain.Dpos.History
import SimpleChain.Dpos.Queue
import SimpleChain.Dpos.Reward
import SimpleChain.Cross.IndexDb
import SimpleChain.Cross.IndexCache
import SimpleChain.Cross.Pool
import SimpleChain.Cross.PoolSafety
import SimpleChain.Cross.Maintenance
import SimpleChain.Cross.Signing
import SimpleChain.Cross.Journal
import SimpleChain.Cross.Sync
import SimpleChain.Istanbul.Core
import SimpleChain.Istanbul.Network
import SimpleChain.Istanbul.Invariant
import SimpleChain.Istanbul.Agreement
import SimpleChain.Istanbul.Engine
import SimpleChain.Istanbul.Voting
import SimpleChain.Istanbul.Snapshot
import SimpleChain.Rlp.Item
import SimpleChain.Rlp.Types
import SimpleChain.Rlp.Encode
import SimpleChain.Rlp.Stream
import SimpleChain.Rlp.Decode
import SimpleChain.Rlp.Read
import SimpleChain.Rlp.Accept
import SimpleChain.Rlp.Canonical
import SimpleChain.Rlp.RoundTrip
import SimpleChain.Rlp.Typed
import SimpleChain.Trie.Encoding
import SimpleChain.Trie.Node
import SimpleChain.Trie.Lookup
import SimpleChain.Trie.Update
import SimpleChain.Trie.Map
import SimpleChain.Trie.Unique
import SimpleChain.Trie.Hasher
import SimpleChain.Istanbul.Extra
import SimpleChain.Scrypt.Consensus
import SimpleChain.Scrypt.VerifyHeaders
import SimpleChain.Lib.GoSet
import SimpleChain.Raft.SpeculativeChain
import SimpleChain.Rlp.Tail
import SimpleChain.Raft.Membership
import SimpleChain.Vm.Analysis
import SimpleChain.Vm.MemoryGas
import SimpleChain.Lib.TwosComplement
import SimpleChain.Vm.Instructions
import SimpleChain.Bitutil.Compress
import SimpleChain.Lib.GoHeap
import SimpleChain.Core.TxSortedMap
import SimpleChain.Core.TxList
import SimpleChain.Prque.Sstack
import SimpleChain.Prque.Prque
import SimpleChain.Prque.LazyQueue
import SimpleChain.Prque.LazyQueueValid
import SimpleChain.Prque.LazyQueuePop
import SimpleChain.Rlp.Output
import SimpleChain.Rlp.Raw
import SimpleChain.Trie.Decode
import SimpleChain.Trie.Proof
