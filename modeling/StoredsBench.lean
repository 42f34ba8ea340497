import StoredsBench.Lib.SortedAssoc
import StoredsBench.Lib.CString
import StoredsBench.Lib.CArray
import StoredsBench.Lib.ArrayRelation
import StoredsBench.Lib.Simulation
import StoredsBench.Lib.Persistence
import StoredsBench.Lib.Crash
import StoredsBench.Lib.Logging
import StoredsBench.Lib.Objects
import StoredsBench.Lib.Persisting
import StoredsBench.Lib.Multiway.Valid
import StoredsBench.Lib.Multiway.Slots
import StoredsBench.Lib.Multiway.Labels
import StoredsBench.Lib.Multiway.Schemes
import StoredsBench.Interface
import StoredsBench.Pmem
import StoredsBench.BTree.Dram
import StoredsBench.BPlusTree.Dram
import StoredsBench.Trees.Refinement
import StoredsBench.Trees.Insertion
import StoredsBench.Trees.Splitting
import StoredsBench.Trees.Lookup
import StoredsBench.Trees.Map
import StoredsBench.Trees.Pmem
import StoredsBench.Trees.Filled
import StoredsBench.Trees.PmemMap
import StoredsBench.BTree.Pmem
import StoredsBench.BPlusTree.Pmem
import StoredsBench.BTree.Refinement
import StoredsBench.BTree.Correctness
import StoredsBench.BTree.PmemRefinement
import StoredsBench.BPlusTree.Refinement
import StoredsBench.BPlusTree.Scan
import StoredsBench.BPlusTree.Correctness
import StoredsBench.BPlusTree.PmemRefinement
import StoredsBench.Lib.RedBlack
import StoredsBench.Rbtree.Dram
import StoredsBench.Rbtree.Pmem
import StoredsBench.Rbtree.Refinement
import StoredsBench.Rbtree.Rotation
import StoredsBench.Rbtree.Rebalancing
import StoredsBench.Rbtree.Map
import StoredsBench.Rbtree.Correctness
import StoredsBench.Skiplist.Dram
import StoredsBench.Skiplist.Refinement
import StoredsBench.Skiplist.Update
import StoredsBench.Skiplist.Correctness
import StoredsBench.Hashmap.Dram
import StoredsBench.Lists.Refinement
import StoredsBench.Hashmap.Refinement
import StoredsBench.Hashmap.Correctness
import StoredsBench.Linkedlist.Dram
import StoredsBench.Array.Dram
import StoredsBench.Linkedlist.Correctness
import StoredsBench.Array.Correctness
import StoredsBench.PersistentTrees
import StoredsBench.MemOpt.Pool
import StoredsBench.MemOpt.Ledger
import StoredsBench.MemOpt.Companions
import StoredsBench.BPlusTreeMemOpt.Node
import StoredsBench.BPlusTreeMemOpt.Refinement
import StoredsBench.BPlusTreeMemOpt.Insertion
import StoredsBench.BPlusTreeMemOpt.Calls
import StoredsBench.BPlusTreeMemOpt.Correctness
import StoredsBench.BTreeMemOpt.Node
import StoredsBench.BTreeMemOpt.Refinement
import StoredsBench.BTreeMemOpt.Insertion
import StoredsBench.BTreeMemOpt.Correctness
import StoredsBench.Lib.Frame
import StoredsBench.Clients
import StoredsBench.Rbtree.Clients
import StoredsBench.Rbtree.Pool
import StoredsBench.Rbtree.PoolRefinement
import StoredsBench.Rbtree.Effects
import StoredsBench.Rbtree.Transactions
import StoredsBench.Rbtree.Durability
import StoredsBench.Rbtree.Snapshots
import StoredsBench.Rbtree.Recovery
import StoredsBench.Skiplist.Clients
import StoredsBench.Skiplist.Pmem
import StoredsBench.Skiplist.PmemRefinement
import StoredsBench.Skiplist.Unwritten
import StoredsBench.Skiplist.Transactions
import StoredsBench.Skiplist.Durability
import StoredsBench.MemOpt.Clients
import StoredsBench.StablePointers
import StoredsBench.Lists.Pmem
import StoredsBench.Lists.PmemRefinement
import StoredsBench.Lists.Durability
import StoredsBench.Linkedlist.Pmem
import StoredsBench.Linkedlist.PmemRefinement
import StoredsBench.Linkedlist.Searches
import StoredsBench.Linkedlist.Transactions
import StoredsBench.Hashlist.Pmem
import StoredsBench.Hashlist.Refinement
import StoredsBench.Hashlist.Dram
import StoredsBench.Hashlist.Correctness
import StoredsBench.Linkedlist.Durability
import StoredsBench.Hashlist.Transactions
import StoredsBench.Hashmap.Pmem
import StoredsBench.Hashmap.PmemRefinement
import StoredsBench.Hashmap.Durability
import StoredsBench.Hashmap.Transactions
import StoredsBench.Durability
import StoredsBench.Db.StoredsDB
import StoredsBench.Db.Correctness
import StoredsBench.Lib.Interleaving
import StoredsBench.Linkedlist.DramCas
import StoredsBench.Linkedlist.DramCasOutline
import StoredsBench.Linkedlist.DramCasSteps
import StoredsBench.Linkedlist.DramCasCorrectness
import StoredsBench.Linkedlist.DramCasAlone
import StoredsBench.Core.Utils
import StoredsBench.Core.Workload
import StoredsBench.Core.Hashing
import StoredsBench.Core.Correctness
import StoredsBench.Core.Zipfian
import StoredsBench.Core.ZipfianCorrectness
import StoredsBench.Lib.Slices
import StoredsBench.Core.Discrete
import StoredsBench.Lib.Trimming
import StoredsBench.Core.Properties
import StoredsBench.Core.PropertyFiles
import StoredsBench.Core.CommandLine
import StoredsBench.Db.Driver
import StoredsBench.Db.Loading
import StoredsBench.BTree.Values
import StoredsBench.BTree.ValueFrame
import StoredsBench.ScanAgreement
import StoredsBench.Lib.Release
import StoredsBench.Lib.Multiway.Release
import StoredsBench.Trees.Destroy
import StoredsBench.BPlusTree.Destroy
import StoredsBench.BPlusTreeMemOpt.Destroy
import StoredsBench.BPlusTreeMemOpt.Pmem
import StoredsBench.BPlusTreeMemOpt.PmemDestroy
import StoredsBench.Skiplist.Destroy
import StoredsBench.Linkedlist.Destroy
import StoredsBench.Hashlist.Destroy
import StoredsBench.Hashlist.Sessions
import StoredsBench.Reopening
import StoredsBench.Hashmap.Destroy
import StoredsBench.BTreeMemOpt.Destroy
import StoredsBench.Trees.Effects
import StoredsBench.Trees.Recovery
import StoredsBench.Trees.Transactions
import StoredsBench.Trees.Updates
import StoredsBench.BTree.Transactions
import StoredsBench.BPlusTree.Transactions
import StoredsBench.Agreement
import StoredsBench.Array.Pmem
import StoredsBench.Array.PmemRefinement
