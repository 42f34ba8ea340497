/-
Module: StoredsBench.MemOpt.Clients
Layer: Correctness
Purpose: `BPDramConcurrentMLock` of `bplustree_mem_opt/bp_dram_concurrent_mlock.cc` and
  `BTDramConcurrentMLock` of `btree_mem_opt/bt_dram_concurrent_mlock.cc`: `BPDram` and `BTDram` with a
  lock around every call.  Splits and shifts move pointers to records only, and the ledger says which
  record is whose, so the record of a key stays where it is.
Trusted boundary: human-reviewed spec for `shared`
Main exports: BPDramConcurrentMLock.shared, BPDramConcurrentMLock.keepsPointers,
  BTDramConcurrentMLock.shared, BTDramConcurrentMLock.keepsPointers
-/
import StoredsBench.Clients
import StoredsBench.BPlusTreeMemOpt.Correctness
import StoredsBench.BTreeMemOpt.Correctness

namespace StoredsBench

open Lib Lib.Multiway Lib.SortedAssoc MemOpt

namespace MemOpt

/-- Where the ledger says the records of the keys are. -/
def places (owners : List Key) : List (Ptr × Key) :=
  owners.zipIdx.map fun owner => (owner.2 + 1, owner.1)

theorem mem_places {owners : List Key} {record : Ptr} {key : Key} :
    (record, key) ∈ places owners ↔ OwnedBy owners record key := by
  simp only [places, List.mem_map, Prod.exists, List.mem_zipIdx_iff_getElem?, Prod.mk.injEq]
  constructor
  · rintro ⟨_, index, found, rfl, rfl⟩
    exact ⟨index, rfl, found⟩
  · rintro ⟨index, rfl, found⟩
    exact ⟨key, index, found, rfl, rfl⟩

section Sharing

variable {t : Nat} {X I N R : Type} [Valued R] [Tagged R] {kind : Trees.Kind t I}
  {chain : Trees.LeafChain X} {objects : List Key → Trees.Node t X → N → Prop} {pool : Pool N R}
  {splitNode : Nat → Ptr → Ptr → Trees.TreeProg t X Unit}
  {search : Nat → Ptr → Key → Trees.TreeProg t X (Option Trees.SlotRef)}
  {updateIfFound : Nat → Ptr → Key → Value → Trees.TreeProg t X Bool} {links : X}
  {searchThere : Nat → Ptr → Key → Prog N (Heap R) (Option Ptr)}
  {updateThere : Nat → Ptr → Key → Value → PoolProg N R Bool}
  {insertNewThere : Nat → Ptr → Key → Value → PoolProg N R Unit}
  {insertThere : Key → Value → PoolProg N R Int} {newRecord : Heap R → Key → Value → R}

/-- The state stands for a tree, and the places are those of its records. -/
def Placed (kind : Trees.Kind t I) (chain : Trees.LeafChain X)
    (objects : List Key → Trees.Node t X → N → Prop) (state : PoolState N R)
    (places : List (Ptr × Key)) : Prop :=
  ∃ owners entries store, Companions kind chain objects owners entries store state ∧
    places = MemOpt.places owners

theorem Companions.rooted {owners : List Key} {entries : List (Key × Value)}
    {store : Store (Trees.Node t X) Unit} {state : PoolState N R}
    (companions : Companions kind chain objects owners entries store state) :
    (memory state).root ≠ null := by
  obtain ⟨⟨depth, tree, stores, _⟩, stands, _⟩ := companions
  rw [stands.root]
  exact stores.root_ne_null

/-- What a search delivers is the record the ledger has for the key. -/
theorem Companions.finds {owners : List Key} {entries : List (Key × Value)}
    {store : Store (Trees.Node t X) Unit} {state : PoolState N R}
    (companions : Companions kind chain objects owners entries store state)
    (implements : Trees.Implements kind chain splitNode search updateIfFound links)
    (keeps : KeepsRecords objects pool splitNode search links searchThere updateThere insertNewThere
      insertThere newRecord) (key : Key) :
    ∃ found, (searchThere (memory state).heap.size (memory state).root key (memory state)).map
        Prod.fst = .ok found ∧
      ((∃ record, found = some record ∧ OwnedBy owners record key) ∨ found = none ∧ key ∉ owners) := by
  obtain ⟨slot, found, after, _, ran, denotes, finds, _⟩ :=
    companions.searches implements keeps key
  refine ⟨found, by rw [ran]; rfl, ?_⟩
  cases slot with
  | none =>
      have absent : entries.lookup key = none := (Except.ok.inj denotes).symm
      exact Or.inr ⟨finds, companions.ledger.not_mem absent⟩
  | some slot => exact Or.inl finds

/-- Records stay with their keys in a class whose calls are these on a tree with a root. -/
theorem keepsPointers (implements : Trees.Implements kind chain splitNode search updateIfFound links)
    (keeps : KeepsRecords objects pool splitNode search links searchThere updateThere insertNewThere
      insertThere newRecord) {backend : SharedBackend (PoolState N R)}
    (inserts : ∀ key value state, (memory state).root ≠ null →
      backend.insert key value state = (insertThere key value state).map Prod.snd)
    (updates : ∀ key value state, (memory state).root ≠ null →
      backend.update key value state = backend.insert key value state)
    (reads : ∀ key state, (memory state).root ≠ null → backend.read key state =
      (searchThere (memory state).heap.size (memory state).root key (memory state)).map Prod.fst)
    (slots : ∀ state record, backend.slot state record =
      ((memory state).aux.get? record).map Valued.slot) :
    KeepsPointers backend (Placed kind chain objects) where
  unique := by
    rintro state _ first second key ⟨owners, entries, store, companions, rfl⟩ firstPlace secondPlace
    exact (mem_places.mp secondPlace).record_eq companions.ledger.distinct (mem_places.mp firstPlace)
  read := by
    rintro state _ ⟨owners, entries, store, companions, rfl⟩ key
    rw [reads key state companions.rooted]
    obtain ⟨found, ran, ⟨record, rfl, owned⟩ | ⟨rfl, _⟩⟩ := companions.finds implements keeps key
    · exact Or.inl ⟨record, ran, mem_places.mpr owned⟩
    · exact Or.inr ran
  complete := by
    rintro state _ record key ⟨owners, entries, store, companions, rfl⟩ place missing
    rw [reads key state companions.rooted] at missing
    obtain ⟨found, ran, ⟨record, rfl, owned⟩ | ⟨rfl, absent⟩⟩ := companions.finds implements keeps key
    · rw [ran] at missing
      cases missing
    · exact absent (mem_places.mp place).mem
  insert := by
    rintro state _ ⟨owners, entries, store, companions, rfl⟩ key value
    obtain ⟨next, final, _, ran, still, kept⟩ := companions.insert implements keeps key value
    refine ⟨final, _, ?_, ⟨_, _, next, still, rfl⟩, ?_, ?_⟩
    · rw [inserts key value state companions.rooted, ran]
      rfl
    · intro pair place
      rw [mem_places] at place ⊢
      split
      · exact place
      · exact place.append [key]
    · intro record other place different
      rw [slots, slots, kept record other (mem_places.mp place) different]
  update := by
    rintro state _ ⟨owners, entries, store, companions, _⟩ key value
    exact updates key value state companions.rooted

end Sharing

end MemOpt

namespace BPDramConcurrentMLock

open BP

/-- `BPDramConcurrentMLock`: the calls of `BPDram`, each in a critical section. -/
def shared (pool : Pool Node Record) : SharedBackend State where
  insert := fun key value state => (BPDram.insert pool key value state).map Prod.snd
  update := fun key value state => do
    let _ ← BPDram.check (memory state)
    (BPDram.insert pool key value state).map Prod.snd
  read := fun key state => (BPDram.read key (memory state)).map Prod.fst
  slot := fun state record => (memory state).aux.get? record

theorem keepsPointers (pool : Pool Node Record) :
    KeepsPointers (shared pool) (Placed BPlusTreeDram.kind BPlusTreeDram.chain NodeStands) := by
  apply MemOpt.keepsPointers BPlusTreeDram.implements (BP.keepsRecords pool)
  · intro key value state rooted
    simp only [shared, BPDram.insert]
    rw [bind_ok (Prog.getRoot_ok state), if_neg (show state.root ≠ null from rooted)]
  · intro key value state rooted
    simp only [shared, BPDram.check_ok rooted]
    rfl
  · intro key state rooted
    simp only [shared, BPDram.read]
    rw [bind_ok (BPDram.check_ok rooted), BP.searchFromRoot, bind_ok (Prog.getRoot_ok _),
      bind_ok (Prog.heapSize_ok _)]
  · intro state record
    exact Option.map_id_fun.symm ▸ rfl

/-- The first insert. -/
theorem insert_first (pool : Pool Node Record) (key : Key) (value : Value) :
    ∃ next places, (shared pool).insert key value BPDram.init = .ok next ∧
      Placed BPlusTreeDram.kind BPlusTreeDram.chain NodeStands next places := by
  obtain ⟨store, next, _, ran, companions⟩ := BPDram.insert_first pool key value
  refine ⟨next, _, ?_, _, _, store, companions, rfl⟩
  simp only [shared, ran]
  rfl

end BPDramConcurrentMLock

namespace BTDramConcurrentMLock

open BT

/-- `BTDramConcurrentMLock`: the calls of `BTDram`, each in a critical section. -/
def shared (pool : Pool Node Entry) : SharedBackend State where
  insert := fun key value state => (BTDram.insert pool key value state).map Prod.snd
  update := fun key value state => do
    let _ ← BTDram.check (memory state)
    (BTDram.insert pool key value state).map Prod.snd
  read := fun key state => (BTDram.read key (memory state)).map Prod.fst
  slot := fun state entry => ((memory state).aux.get? entry).map Entry.value

theorem keepsPointers (pool : Pool Node Entry) :
    KeepsPointers (shared pool) (Placed BTreeDram.kind BTreeDram.chain NodeStands) := by
  apply MemOpt.keepsPointers BTreeDram.implements (BT.keepsRecords pool)
  · intro key value state rooted
    simp only [shared, BTDram.insert]
    rw [bind_ok (Prog.getRoot_ok state), if_neg (show state.root ≠ null from rooted)]
  · intro key value state rooted
    simp only [shared, BTDram.check_ok rooted]
    rfl
  · intro key state rooted
    simp only [shared, BTDram.read_eq key rooted]
  · exact fun _ _ => rfl

/-- The first insert. -/
theorem insert_first (pool : Pool Node Entry) (key : Key) (value : Value) :
    ∃ next places, (shared pool).insert key value BTDram.init = .ok next ∧
      Placed BTreeDram.kind BTreeDram.chain NodeStands next places := by
  obtain ⟨store, next, _, ran, companions⟩ := BTDram.insert_first pool key value
  refine ⟨next, _, ?_, _, _, store, companions, rfl⟩
  simp only [shared, ran]
  rfl

end BTDramConcurrentMLock

end StoredsBench
