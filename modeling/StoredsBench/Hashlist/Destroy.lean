/-
Module: StoredsBench.Hashlist.Destroy
Layer: Correctness
Purpose: `destroy` of `hl_dram.cc`, over a heap that holds the objects of the table as well as the nodes:
  it frees the entries bucket by bucket, then the table, and then the nodes as `LinkedlistDram` does.
Trusted boundary: none
Main exports: HlObject, HlMemory, HlDram.destroy, TableAt, HlDram.destroy_frees_iff, lists_torn_down_iff
-/
import StoredsBench.Linkedlist.Destroy
import StoredsBench.Hashlist.Dram

namespace StoredsBench

open Lib Lists Linkedlist

namespace Hashlist

/-- The objects of an `HlDram`: `struct dram_hashlist`, `struct hl_dram_buckets`, the array of buckets,
`struct hl_dram_entry` and `struct ll_dram_node`. -/
inductive HlObject where
  | hashlist (buckets : Ptr)
  | buckets (bucket : Ptr)
  | array (entries : List Ptr)
  | entry (contents : HlEntry) (next : Ptr)
  | node (contents : ListNode)

/-- The members of the class beside `head`. -/
structure HlMembers where
  root_p : Ptr
  tail : Ptr

/-- Every object of an `HlDram` with its members; the pointer it is entered through is `head`. -/
abbrev HlMemory := Store HlObject HlMembers

/-- The number of buckets that `init` allocates and `destroy` visits. -/
def INIT_BUCKETS_NUM : Nat := 1333334

namespace HlObject

/-- `root_p->buckets`. -/
def bucketsOf : HlObject → Except Fault Ptr
  | .hashlist target => .ok target
  | _ => .error .invalidPointer

/-- `buckets->bucket`. -/
def bucketOf : HlObject → Except Fault Ptr
  | .buckets target => .ok target
  | _ => .error .invalidPointer

/-- `bucket[index]`. -/
def firstOf (index : Nat) : HlObject → Except Fault Ptr
  | .array entries =>
      match entries[index]? with
      | some first => .ok first
      | none => .error .outOfBounds
  | _ => .error .invalidPointer

/-- `entry_p->next`. -/
def entryNext : HlObject → Except Fault Ptr
  | .entry _ next => .ok next
  | _ => .error .invalidPointer

/-- `node->next`. -/
def nodeNext : HlObject → Except Fault Ptr
  | .node contents => nextOf contents
  | _ => .error .invalidPointer

end HlObject

end Hashlist

open Hashlist

namespace HlDram

/-- The programs of `destroy`. -/
abbrev MemoryM (α : Type) := Prog HlObject HlMembers α

/-- `check`: aborts without a table. -/
def check : MemoryM Unit := do
  let members ← Prog.getAux
  if members.root_p = null then Prog.fault .assertion
  else
    let buckets ← Prog.follow HlObject.bucketsOf members.root_p
    if buckets = null then Prog.fault .assertion else return ()

/-- `free_hl_entry_chain`. -/
def freeHlEntryChain (head : Ptr) : MemoryM Unit := do
  let bound ← Prog.heapSize
  Prog.freeChain (fun _ => return ()) HlObject.entryNext (bound + 1) head

/-- `root_p->buckets->bucket`. -/
def bucketArray : MemoryM Ptr := do
  let members ← Prog.getAux
  let buckets ← Prog.follow HlObject.bucketsOf members.root_p
  Prog.follow HlObject.bucketOf buckets

/-- `for (int i = index; i < index + count; i += 1)`, over the buckets. -/
def freeBuckets : (count : Nat) → (index : Nat) → MemoryM Unit
  | 0, _ => return ()
  | count + 1, index => do
      let array ← bucketArray
      let first ← Prog.follow (HlObject.firstOf index) array
      if first = null then freeBuckets count (index + 1)
      else
        freeHlEntryChain first
        freeBuckets count (index + 1)

/-- `free(root_p->buckets->bucket); free(root_p->buckets); free(root_p);` -/
def freeTable : MemoryM Unit := do
  let array ← bucketArray
  Prog.free array
  let members ← Prog.getAux
  let buckets ← Prog.follow HlObject.bucketsOf members.root_p
  Prog.free buckets
  Prog.free members.root_p

/-- `destroy`. -/
def destroy : MemoryM Unit := do
  check
  freeBuckets INIT_BUCKETS_NUM 0
  freeTable
  let members ← Prog.getAux
  freeNodes HlObject.nodeNext members.tail

end HlDram

namespace Hashlist

/-- The objects that make up the table. -/
structure TableAt (heap : Heap HlObject) (root_p buckets bucket : Ptr) (entries : List Ptr) : Prop where
  hashlist : heap.get? root_p = some (.hashlist buckets)
  buckets : heap.get? buckets = some (.buckets bucket)
  array : heap.get? bucket = some (.array entries)

namespace TableAt

variable {heap after : Heap HlObject} {root_p buckets bucket head : Ptr} {entries gone members : List Ptr}

/-- The objects of the table have no `next` member. -/
theorem not_mem (table : TableAt heap root_p buckets bucket entries)
    {next : HlObject → Except Fault Ptr} (linked : Linked (linkBy next heap) head members)
    (ofTable : ∀ object target, next object = .ok target →
      (∀ other, object ≠ .hashlist other) ∧ (∀ other, object ≠ .buckets other) ∧
        ∀ others, object ≠ .array others) :
    ∀ address ∈ [bucket, buckets, root_p], address ∉ members := by
  intro address ofThree member
  obtain ⟨object, target, live, followed⟩ := linked.exists_live member
  obtain ⟨notHashlist, notBuckets, notArray⟩ := ofTable object target followed
  simp only [List.mem_cons, List.not_mem_nil, or_false] at ofThree
  rcases ofThree with rfl | rfl | rfl
  · exact notArray entries (Option.some.inj (live.symm.trans table.array))
  · exact notBuckets bucket (Option.some.inj (live.symm.trans table.buckets))
  · exact notHashlist buckets (Option.some.inj (live.symm.trans table.hashlist))

theorem released (table : TableAt heap root_p buckets bucket entries) (release : Released heap after gone)
    (apart : ∀ address ∈ [bucket, buckets, root_p], address ∉ gone) :
    TableAt after root_p buckets bucket entries := by
  constructor
  · rw [release.kept (apart root_p (by simp))]
    exact table.hashlist
  · rw [release.kept (apart buckets (by simp))]
    exact table.buckets
  · rw [release.kept (apart bucket (by simp))]
    exact table.array

end TableAt

theorem exists_first {α β : Type} {related : α → β → Prop} {firsts : List α} {chains : List β} {chain : β}
    (each : List.Forall₂ related firsts chains) (member : chain ∈ chains) :
    ∃ first, related first chain := by
  induction each with
  | nil => cases member
  | @cons head other heads others headRelated restRelated inductionHypothesis =>
      rcases List.mem_cons.mp member with rfl | later
      · exact ⟨head, headRelated⟩
      · exact inductionHypothesis later

theorem entryNext_inv {object : HlObject} {target : Ptr} (followed : object.entryNext = .ok target) :
    ∃ contents, object = .entry contents target := by
  cases object with
  | entry contents next =>
      cases followed
      exact ⟨contents, rfl⟩
  | hashlist buckets => cases followed
  | buckets bucket => cases followed
  | array entries => cases followed
  | node contents => cases followed

theorem nodeNext_inv {object : HlObject} {target : Ptr} (followed : object.nodeNext = .ok target) :
    ∃ contents, object = .node contents := by
  cases object with
  | node contents => exact ⟨contents, rfl⟩
  | hashlist buckets => cases followed
  | buckets bucket => cases followed
  | array entries => cases followed
  | entry contents next => cases followed

end Hashlist

namespace HlDram

variable {memory : HlMemory} {buckets bucket : Ptr} {entries : List Ptr}

theorem bucketArray_ok (table : TableAt memory.heap memory.aux.root_p buckets bucket entries) :
    bucketArray memory = .ok (bucket, memory) := by
  have isBuckets : HlObject.bucketsOf (.hashlist buckets) = .ok buckets := rfl
  rw [bucketArray, bind_ok (Prog.getAux_ok _), bind_ok (Prog.follow_ok table.hashlist isBuckets)]
  exact Prog.follow_ok table.buckets rfl

/-- One chain, which the heap holds beside everything else. -/
theorem freeHlEntryChain_ok {first : Ptr} {chain : List Ptr}
    (linked : Linked (linkBy HlObject.entryNext memory.heap) first chain) :
    ∃ after, freeHlEntryChain first memory = .ok ((), after) ∧ after.root = memory.root ∧
      after.aux = memory.aux ∧ Released memory.heap after.heap chain := by
  obtain ⟨after, ran, released⟩ := freeChain_ok
    (show Assigns (fun _ => return () : Ptr → MemoryM Unit) from fun address store => ⟨store, rfl, rfl⟩)
    linked linked.length_lt
  have kept := freeChain_keeps (fun store => (store.root, store.aux)) (by
    intro address before ended assignRan
    cases assignRan
    rfl) (fun before heap => rfl) ran
  refine ⟨after, ?_, congrArg Prod.fst kept, congrArg Prod.snd kept, released⟩
  rw [freeHlEntryChain, bind_ok (Prog.heapSize_ok _), ran]

theorem freeBuckets_eq : ∀ (count index : Nat), freeBuckets count index =
    Prog.freeEach (fun index => bucketArray >>= Prog.follow (HlObject.firstOf index)) freeHlEntryChain count
      index
  | 0, _ => rfl
  | count + 1, index => by
      rw [freeBuckets, Prog.freeEach, bind_assoc]
      simp only [freeBuckets_eq count]

/-- What freeing entries leaves alone. -/
structure Untouched (memory : HlMemory) (buckets bucket : Ptr) (entries : List Ptr) (left : HlMemory) :
    Prop where
  root : left.root = memory.root
  aux : left.aux = memory.aux
  table : TableAt left.heap left.aux.root_p buckets bucket entries

/-- The loop over the buckets. -/
theorem freeBuckets_ok {chains : List (List Ptr)}
    (table : TableAt memory.heap memory.aux.root_p buckets bucket entries)
    (linked : List.Forall₂ (Linked (linkBy HlObject.entryNext memory.heap)) entries chains)
    (distinct : chains.flatten.Nodup) :
    ∃ after, freeBuckets entries.length 0 memory = .ok ((), after) ∧ after.root = memory.root ∧
      after.aux = memory.aux ∧ Released memory.heap after.heap chains.flatten := by
  have reads : ∀ {left : HlMemory} {index : Nat} {first : Ptr},
      Untouched memory buckets bucket entries left → entries[index]? = some first →
      (bucketArray >>= Prog.follow (HlObject.firstOf index)) left = .ok (first, left) := by
    intro left index first untouched isFirst
    have found : HlObject.firstOf index (.array entries) = .ok first := by
      rw [HlObject.firstOf, isFirst]
    rw [bind_ok (bucketArray_ok untouched.table)]
    exact Prog.follow_ok untouched.table.array found
  have frees : ∀ {left : HlMemory} {first : Ptr} {chain : List Ptr},
      Untouched memory buckets bucket entries left →
      Linked (linkBy HlObject.entryNext left.heap) first chain →
      ∃ after, freeHlEntryChain first left = .ok ((), after) ∧
        Untouched memory buckets bucket entries after ∧ Released left.heap after.heap chain := by
    intro left first chain untouched firstLinked
    obtain ⟨after, ran, root, aux, released⟩ := freeHlEntryChain_ok firstLinked
    refine ⟨after, ran, ⟨root.trans untouched.root, aux.trans untouched.aux, ?_⟩, released⟩
    rw [aux]
    apply untouched.table.released released
    apply untouched.table.not_mem firstLinked
    intro object target followed
    obtain ⟨contents, rfl⟩ := entryNext_inv followed
    simp
  obtain ⟨after, ran, untouched, released⟩ :=
    freeEach_ok reads frees ⟨rfl, rfl, table⟩ List.drop_zero linked distinct
  exact ⟨after, (congrFun (freeBuckets_eq _ _) memory).trans ran, untouched.root, untouched.aux, released⟩

theorem freeTable_ok (table : TableAt memory.heap memory.aux.root_p buckets bucket entries) :
    ∃ after, freeTable memory = .ok ((), after) ∧ after.root = memory.root ∧ after.aux = memory.aux ∧
      Released memory.heap after.heap [bucket, buckets, memory.aux.root_p] := by
  have isBuckets : HlObject.bucketsOf (.hashlist buckets) = .ok buckets := rfl
  have notArray : buckets ≠ bucket := by
    rintro rfl
    cases table.array.symm.trans table.buckets
  have rootNotArray : memory.aux.root_p ≠ bucket := by
    rintro same
    cases table.array.symm.trans (same ▸ table.hashlist)
  have rootNotBuckets : memory.aux.root_p ≠ buckets := by
    rintro same
    cases table.buckets.symm.trans (same ▸ table.hashlist)
  have hashlistLive : (memory.heap.erase bucket).get? memory.aux.root_p = some (.hashlist buckets) := by
    rw [Heap.get?_erase table.array, if_neg rootNotArray, table.hashlist]
  have bucketsLive : (memory.heap.erase bucket).get? buckets = some (.buckets bucket) := by
    rw [Heap.get?_erase table.array, if_neg notArray, table.buckets]
  have rootLive : ((memory.heap.erase bucket).erase buckets).get? memory.aux.root_p =
      some (.hashlist buckets) := by
    rw [Heap.get?_erase bucketsLive, if_neg rootNotBuckets, hashlistLive]
  have last := Released.nil (((memory.heap.erase bucket).erase buckets).erase memory.aux.root_p)
  refine ⟨{ memory with heap := ((memory.heap.erase bucket).erase buckets).erase memory.aux.root_p },
    ?_, rfl, rfl, ((last.cons rootLive).cons bucketsLive).cons table.array⟩
  rw [freeTable, bind_ok (bucketArray_ok table), bind_ok (Prog.free_ok table.array),
    bind_ok (Prog.getAux_ok _), bind_ok (Prog.follow_ok hashlistLive isBuckets),
    bind_ok (Prog.free_ok bucketsLive), Prog.free_ok rootLive]

end HlDram

/-- The objects of an `HlDram` whose list ends with a null pointer. -/
structure Hashlist.Laid (memory : HlMemory) (buckets bucket : Ptr) (entries : List Ptr)
    (chains : List (List Ptr)) (nodes : List Ptr) : Prop where
  table : TableAt memory.heap memory.aux.root_p buckets bucket entries
  size : entries.length = INIT_BUCKETS_NUM
  chained : List.Forall₂ (Linked (linkBy HlObject.entryNext memory.heap)) entries chains
  distinct : chains.flatten.Nodup
  list : Terminated (linkBy HlObject.nodeNext memory.heap) memory.root memory.aux.tail nodes

namespace HlDram

variable {memory : HlMemory} {buckets bucket : Ptr} {entries nodes : List Ptr} {chains : List (List Ptr)}

theorem check_ok (table : TableAt memory.heap memory.aux.root_p buckets bucket entries) :
    check memory = .ok ((), memory) := by
  have isBuckets : HlObject.bucketsOf (.hashlist buckets) = .ok buckets := rfl
  rw [check, bind_ok (Prog.getAux_ok _), if_neg (Heap.ne_null_of_get? table.hashlist),
    bind_ok (Prog.follow_ok table.hashlist isBuckets), if_neg (Heap.ne_null_of_get? table.buckets)]
  rfl

/-- The table is freed, and the nodes remain for the list. -/
theorem destroy_table (laid : Laid memory buckets bucket entries chains nodes) :
    ∃ after, destroy memory = freeNodes HlObject.nodeNext after.aux.tail after ∧
      Released memory.heap after.heap (chains.flatten ++ [bucket, buckets, memory.aux.root_p]) ∧
      Terminated (linkBy HlObject.nodeNext after.heap) after.root after.aux.tail nodes := by
  obtain ⟨table, size, chained, distinct, list⟩ := laid
  obtain ⟨emptied, bucketsRan, emptiedRoot, emptiedAux, chainsReleased⟩ :=
    freeBuckets_ok table chained distinct
  have tableLeft : TableAt emptied.heap emptied.aux.root_p buckets bucket entries := by
    rw [emptiedAux]
    apply table.released chainsReleased
    intro address ofTable inChains
    obtain ⟨chain, chainMember, inChain⟩ := List.mem_flatten.mp inChains
    obtain ⟨first, linked⟩ := exists_first chained chainMember
    refine table.not_mem linked ?_ address ofTable inChain
    intro object target followed
    obtain ⟨contents, rfl⟩ := entryNext_inv followed
    simp
  obtain ⟨after, tableRan, afterRoot, afterAux, tableReleased⟩ := freeTable_ok tableLeft
  rw [emptiedAux] at tableReleased afterAux
  have released := chainsReleased.append tableReleased
  refine ⟨after, ?_, released, ?_, ?_⟩
  · rw [destroy, bind_ok (check_ok table), ← size, bind_ok bucketsRan, bind_ok tableRan,
      bind_ok (Prog.getAux_ok _)]
  · rw [afterRoot, emptiedRoot]
    apply list.linked.released released
    intro node isNode gone
    obtain ⟨object, target, live, followed⟩ := list.linked.exists_live isNode
    obtain ⟨contents, rfl⟩ := nodeNext_inv followed
    rcases List.mem_append.mp gone with inChains | ofTable
    · obtain ⟨chain, chainMember, inChain⟩ := List.mem_flatten.mp inChains
      obtain ⟨first, linked⟩ := exists_first chained chainMember
      obtain ⟨other, next, otherLive, otherFollowed⟩ := linked.exists_live inChain
      obtain ⟨entry, rfl⟩ := entryNext_inv otherFollowed
      cases live.symm.trans otherLive
    · refine table.not_mem list.linked ?_ node ofTable isNode
      intro object target followed
      obtain ⟨contents, rfl⟩ := nodeNext_inv followed
      simp
  · rw [afterAux]
    exact list.last

/-- Everything is freed where the list has no nodes, and only there. -/
theorem destroy_frees_iff (laid : Laid memory buckets bucket entries chains nodes) :
    Frees destroy memory (chains.flatten ++ [bucket, buckets, memory.aux.root_p] ++ nodes) ↔
      nodes = [] := by
  obtain ⟨tabled, same, released, terminated⟩ := destroy_table laid
  constructor
  · rintro ⟨after, ran, _⟩
    exact nil_of_freeNodes terminated (same.symm.trans ran)
  · rintro rfl
    rw [List.append_nil]
    exact ⟨tabled, same.trans (freeNodes_nil terminated), released⟩

end HlDram

/-! ### The four classes -/

/-- The DRAM classes tear down the empty list only, and the persistent ones, which do not admit the empty
list, none. -/
theorem lists_torn_down_iff (list : LinkedlistDram) (hashlist : HlMemory)
    (buckets bucket : Ptr) (entries : List Ptr) (chains : List (List Ptr)) (pool : LinkedlistPmem)
    (garbage : Ptr → ListNode) (behind : RootMember → ListPlace RootMember → Bool)
    (nodes hashlistNodes poolNodes : List Ptr)
    (listed : Terminated (nextAt list.heap) list.root list.aux nodes)
    (laid : Laid hashlist buckets bucket entries chains hashlistNodes)
    (pooled : Terminated (nextAt pool.heap) pool.root pool.aux.side.tail poolNodes) :
    (Frees LinkedlistDram.destroy list nodes ↔ nodes = []) ∧
      (Frees HlDram.destroy hashlist
          (chains.flatten ++ [bucket, buckets, hashlist.aux.root_p] ++ hashlistNodes) ↔
        hashlistNodes = []) ∧
      ((poolNodes ≠ [] → Frees (LinkedlistPmem.destroy (ListPool.plain garbage behind)) pool poolNodes) ↔
        poolNodes = []) ∧
      ((poolNodes ≠ [] → Frees (LinkedlistPmem.destroy (ListPool.tx garbage behind)) pool poolNodes) ↔
        poolNodes = []) := by
  have never : ∀ mode : ListPool RootMember,
      (poolNodes ≠ [] → Frees (LinkedlistPmem.destroy mode) pool poolNodes) ↔ poolNodes = [] := by
    intro mode
    constructor
    · intro torn
      by_contra notEmpty
      exact LinkedlistPmem.destroy_never pooled poolNodes (torn notEmpty)
    · exact fun empty notEmpty => absurd empty notEmpty
  exact ⟨LinkedlistDram.destroy_frees_iff listed, HlDram.destroy_frees_iff laid, never _, never _⟩

namespace Hashlist

/-- A list of one node. -/
def oneNode : ListNode :=
  { key := some 7, value := CharArray.unwritten DEFAULT_VALUE_LEN, next := some null }

def oneList : LinkedlistDram := { heap := Heap.empty.push oneNode, root := 1, aux := 1 }

/-- A table without entries. -/
def emptyTable : HlMemory where
  heap := ((Heap.empty.push (.hashlist 2)).push (.buckets 3)).push
    (.array (List.replicate INIT_BUCKETS_NUM null))
  root := null
  aux := { root_p := 1, tail := null }

def onePool : LinkedlistPmem where
  heap := Heap.empty.push oneNode
  root := 1
  aux := { side := { tail := 1, index := () }, running := false, trail := [] }

theorem oneList_terminated : Terminated (nextAt oneList.heap) 1 1 [1] := by
  constructor
  · exact ⟨rfl, Nat.one_ne_zero, null, rfl, rfl⟩
  · rfl

theorem emptyTable_laid : Laid emptyTable 2 3 (List.replicate INIT_BUCKETS_NUM null)
    (List.replicate INIT_BUCKETS_NUM []) [] := by
  have chained : ∀ count, List.Forall₂ (Linked (linkBy HlObject.entryNext emptyTable.heap))
      (List.replicate count null) (List.replicate count []) := by
    intro count
    induction count with
    | zero => exact List.Forall₂.nil
    | succ count inductionHypothesis => exact List.Forall₂.cons rfl inductionHypothesis
  constructor
  · constructor
    · rfl
    · rfl
    · rfl
  · exact List.length_replicate
  · exact chained INIT_BUCKETS_NUM
  · rw [List.flatten_replicate_nil]
    exact List.nodup_nil
  · constructor
    · rfl
    · rfl

end Hashlist

theorem lists_torn_down_one : ¬ Frees LinkedlistDram.destroy oneList [1] ∧
    Frees HlDram.destroy emptyTable
      ((List.replicate INIT_BUCKETS_NUM []).flatten ++ [3, 2, 1] ++ []) := by
  have torn := lists_torn_down_iff oneList emptyTable 2 3 _ _ onePool (fun _ => oneNode) (fun _ _ => false)
    [1] [] [1] oneList_terminated emptyTable_laid oneList_terminated
  constructor
  · exact fun freed => List.cons_ne_nil 1 [] (torn.1.mp freed)
  · exact torn.2.1.mpr rfl

/-- `free(tail)` frees the only node, and `head->next` reads it. -/
theorem oneList_not_torn_down : Terminated (nextAt oneList.heap) oneList.root oneList.aux [1] ∧
    LinkedlistDram.destroy oneList = .error .invalidPointer ∧
    ¬ Frees LinkedlistDram.destroy oneList [1] := by
  have faults : LinkedlistDram.destroy oneList = .error .invalidPointer := rfl
  refine ⟨oneList_terminated, faults, ?_⟩
  rintro ⟨after, ran, _⟩
  cases faults.symm.trans ran

end StoredsBench
