/-
Module: StoredsBench.Lib.Simulation
Layer: Lib
Purpose: One program simulates another when each success of the second, started in related memories,
  is matched by a success of the first that ends in related memories.  The rules follow the shape of
  the programs, so that two versions of one algorithm are compared step by step.  `Coupled` relates
  heaps whose objects sit at the same addresses.
Trusted boundary: none
Main exports: Simulates, Simulates.bind, Simulates.lift, Simulates.after, Coupled, Same, At, Preserves,
  Simulates.keep
-/
import StoredsBench.Lib.Memory

namespace StoredsBench.Lib

section

variable {N M X Y α β γ δ : Type}

/-- From memories related by `pre`, every successful run of `program` is matched by a successful run
of `code`, and results and memories are then related by `post`. -/
def Simulates (pre : Store N X → Store M Y → Prop) (program : Prog N X α) (code : Prog M Y β)
    (post : α → β → Store N X → Store M Y → Prop) : Prop :=
  ∀ ⦃store : Store N X⦄ ⦃memory : Store M Y⦄, pre store memory →
    ∀ ⦃value : α⦄ ⦃after : Store N X⦄, program store = .ok (value, after) →
      ∃ result final, code memory = .ok (result, final) ∧ post value result after final

namespace Simulates

variable {pre weaker : Store N X → Store M Y → Prop} {program : Prog N X α} {code : Prog M Y β}
  {post stronger : α → β → Store N X → Store M Y → Prop}

theorem bind {rest : α → Prog N X γ} {next : β → Prog M Y δ}
    {final : γ → δ → Store N X → Store M Y → Prop} (first : Simulates pre program code post)
    (second : ∀ value result, Simulates (post value result) (rest value) (next result) final) :
    Simulates pre (program >>= rest) (code >>= next) final := by
  intro store memory related value after ran
  obtain ⟨between, middle, firstRan, restRan⟩ := bind_ok_inv ran
  obtain ⟨result, memory, codeRan, between⟩ := first related firstRan
  obtain ⟨last, final, nextRan, related⟩ := second _ _ between restRan
  exact ⟨last, final, by rw [bind_ok codeRan, nextRan], related⟩

theorem pure {value : α} {result : β}
    (related : ∀ store memory, pre store memory → post value result store memory) :
    Simulates pre (pure value) (pure result) post := by
  intro store memory before value after ran
  cases ran
  exact ⟨result, memory, rfl, related _ _ before⟩

theorem weaken (simulates : Simulates weaker program code stronger)
    (before : ∀ store memory, pre store memory → weaker store memory)
    (after : ∀ value result store memory, stronger value result store memory →
      post value result store memory) :
    Simulates pre program code post := by
  intro store memory related value final ran
  obtain ⟨result, last, codeRan, between⟩ := simulates (before _ _ related) ran
  exact ⟨result, last, codeRan, after _ _ _ _ between⟩

/-- A fact about the results so far. -/
theorem assume {fact : Prop} (simulates : fact → Simulates pre program code post) :
    Simulates (fun store memory => fact ∧ pre store memory) program code post := by
  intro store memory related
  exact simulates related.1 related.2

/-- A memory state that does not occur in the programs. -/
theorem ofMemory (simulates : ∀ {store : Store N X} {memory : Store M Y}, pre store memory →
    Simulates (fun before start => before = store ∧ start = memory) program code post) :
    Simulates pre program code post := by
  intro store memory related
  exact simulates related ⟨rfl, rfl⟩

/-- Computations outside the memory. -/
theorem lift {computation : Except Fault α} {computed : Except Fault β} {related : α → β → Prop}
    (agree : ∀ value, computation = .ok value →
      ∃ result, computed = .ok result ∧ related value result) :
    Simulates pre (Prog.lift computation) (Prog.lift computed)
      (fun value result store memory => related value result ∧ pre store memory) := by
  intro store memory before value after ran
  cases computationEq : computation with
  | error fault => simp [Prog.lift, computationEq, Except.map] at ran
  | ok value =>
      simp only [Prog.lift, computationEq, Except.map, Except.ok.injEq, Prod.mk.injEq] at ran
      obtain ⟨rfl, rfl⟩ := ran
      obtain ⟨result, computedEq, holds⟩ := agree _ computationEq
      exact ⟨result, memory, Prog.lift_ok computedEq memory, holds, before⟩

/-- A computation outside the memory and one that only reads it. -/
theorem reading {computation : Except Fault α} {related : α → β → Prop}
    (agree : ∀ store memory value, pre store memory → computation = .ok value →
      ∃ result, code memory = .ok (result, memory) ∧ related value result) :
    Simulates pre (Prog.lift computation) code
      (fun value result store memory => related value result ∧ pre store memory) := by
  intro store memory before value after ran
  obtain ⟨computed, rfl⟩ := Prog.lift_inv ran
  obtain ⟨result, codeRan, holds⟩ := agree after memory value before computed
  exact ⟨result, memory, codeRan, holds, before⟩

/-- A change that first computes something on which the rest depends. -/
theorem modify_choose {address : Ptr} {source : Except Fault γ} {change : N → Except Fault N}
    {changeFrom : γ → N → Except Fault N} {post : Unit → β → Store N X → Store M Y → Prop}
    (chooses : ∀ object changed, change object = .ok changed →
      ∃ value, source = .ok value ∧ changeFrom value object = .ok changed)
    (simulates : ∀ value, source = .ok value →
      Simulates pre (Prog.modify address (changeFrom value)) code post) :
    Simulates pre (Prog.modify address change) code post := by
  intro store memory before result after ran
  obtain ⟨object, changed, live, changeRan, rfl⟩ := Prog.modify_inv ran
  obtain ⟨value, chosen, changeRan⟩ := chooses _ _ changeRan
  exact simulates value chosen before (Prog.modify_ok live changeRan)

/-- A step that only the code takes. -/
theorem after {step : Prog M Y γ} {next : γ → Prog M Y β}
    (middle : γ → Store N X → Store M Y → Prop)
    (steps : ∀ store memory, pre store memory →
      ∃ value final, step memory = .ok (value, final) ∧ middle value store final)
    (simulates : ∀ value, Simulates (middle value) program (next value) post) :
    Simulates pre program (step >>= next) post := by
  intro store memory related value final ran
  obtain ⟨between, start, stepped, related⟩ := steps _ _ related
  obtain ⟨result, last, codeRan, related⟩ := simulates between related ran
  exact ⟨result, last, by rw [bind_ok stepped, codeRan], related⟩

/-- A result that the program computes at its end and the code does not. -/
theorem returns {final : γ → β → Store N X → Store M Y → Prop} {result : γ}
    (simulates : Simulates pre program code post)
    (related : ∀ value other store memory, post value other store memory →
      final result other store memory) :
    Simulates pre (program >>= fun _ => Pure.pure result) code final := by
  intro store memory before value after ran
  obtain ⟨between, middle, programRan, rest⟩ := bind_ok_inv ran
  cases rest
  obtain ⟨other, last, codeRan, holds⟩ := simulates before programRan
  exact ⟨other, last, codeRan, related _ _ _ _ holds⟩

theorem branch {condition holds : Prop} [Decidable condition] [Decidable holds]
    {otherProgram : Prog N X α} {otherCode : Prog M Y β} (same : condition ↔ holds)
    (left : condition → Simulates pre program code post)
    (right : ¬ condition → Simulates pre otherProgram otherCode post) :
    Simulates pre (if condition then program else otherProgram)
      (if holds then code else otherCode) post := by
  by_cases true : condition
  · rw [if_pos true, if_pos (same.mp true)]
    exact left true
  · rw [if_neg true, if_neg fun other => true (same.mpr other)]
    exact right true

end Simulates

end

/-- The objects of one heap stand for those of the other at the same addresses. -/
structure Coupled {N M : Type} (objects : N → M → Prop) (heap : Heap N) (memory : Heap M) : Prop where
  size : memory.size = heap.size
  live : ∀ {address : Ptr} {object : N}, heap.get? address = some object →
    ∃ counterpart, memory.get? address = some counterpart ∧ objects object counterpart

namespace Coupled

variable {N M : Type} {objects : N → M → Prop} {heap : Heap N} {memory : Heap M}

theorem empty : Coupled objects Heap.empty Heap.empty where
  size := rfl
  live := fun live => by simp at live

theorem mono {weaker : N → M → Prop} (coupled : Coupled objects heap memory)
    (weaken : ∀ {object counterpart}, objects object counterpart → weaker object counterpart) :
    Coupled weaker heap memory where
  size := coupled.size
  live := fun live => by
    obtain ⟨counterpart, found, related⟩ := coupled.live live
    exact ⟨counterpart, found, weaken related⟩

theorem set (coupled : Coupled objects heap memory) {address : Ptr} {old object : N}
    {counterpart : M} (live : heap.get? address = some old) (related : objects object counterpart) :
    Coupled objects (heap.set address object) (memory.set address counterpart) where
  size := by rw [Heap.size_set, Heap.size_set, coupled.size]
  live := by
    intro other found changed
    obtain ⟨_, liveThere, _⟩ := coupled.live live
    rw [Heap.get?_set live] at changed
    rw [Heap.get?_set liveThere]
    by_cases same : other = address
    · rw [if_pos same, Option.some.injEq] at changed
      rw [if_pos same]
      exact ⟨counterpart, rfl, changed ▸ related⟩
    · rw [if_neg same] at changed
      rw [if_neg same]
      exact coupled.live changed

/-- A change the counterpart fits as it is. -/
theorem set_first (coupled : Coupled objects heap memory) {address : Ptr} {old object : N}
    (live : heap.get? address = some old)
    (fits : ∀ counterpart, objects old counterpart → objects object counterpart) :
    Coupled objects (heap.set address object) memory where
  size := by rw [Heap.size_set, coupled.size]
  live := by
    intro other found changed
    rw [Heap.get?_set live] at changed
    by_cases same : other = address
    · rw [if_pos same, Option.some.injEq] at changed
      obtain ⟨counterpart, there, related⟩ := coupled.live live
      exact ⟨counterpart, same ▸ there, changed ▸ fits counterpart related⟩
    · rw [if_neg same] at changed
      exact coupled.live changed

theorem push (coupled : Coupled objects heap memory) {object : N} {counterpart : M}
    (related : objects object counterpart) :
    Coupled objects (heap.push object) (memory.push counterpart) where
  size := by rw [Heap.size_push, Heap.size_push, coupled.size]
  live := by
    intro other found changed
    rw [Heap.get?_push] at changed
    rw [Heap.get?_push, coupled.size]
    by_cases fresh : other = heap.size + 1
    · rw [if_pos fresh, Option.some.injEq] at changed
      rw [if_pos fresh]
      exact ⟨counterpart, rfl, changed ▸ related⟩
    · rw [if_neg fresh] at changed
      rw [if_neg fresh]
      exact coupled.live changed

end Coupled

/-! ### Memories with corresponding objects -/

section Same

variable {N M X Y α β : Type} {objects : N → M → Prop} {beside : X → Y → Prop}

/-- Corresponding objects at the same addresses, entered through the same pointer. -/
structure Same (objects : N → M → Prop) (beside : X → Y → Prop) (store : Store N X)
    (memory : Store M Y) : Prop where
  heap : Coupled objects store.heap memory.heap
  root : memory.root = store.root
  aux : beside store.aux memory.aux

namespace Simulates

variable {program : Prog N X α} {code : Prog M Y β} {pre : Store N X → Store M Y → Prop}
  {post : α → β → Store N X → Store M Y → Prop}

theorem fault (reason : Fault) : Simulates pre (Prog.fault reason) code post := by
  intro store memory related value after ran
  cases ran

theorem getRoot : Simulates (Same objects beside) Prog.getRoot Prog.getRoot
    fun root other store memory => other = root ∧ Same objects beside store memory := by
  intro store memory same value after ran
  cases ran
  exact ⟨_, _, rfl, same.root, same⟩

theorem heapSize : Simulates (Same objects beside) Prog.heapSize Prog.heapSize
    fun size other store memory => other = size ∧ Same objects beside store memory := by
  intro store memory same value after ran
  cases ran
  exact ⟨_, _, rfl, same.heap.size, same⟩

theorem setRoot (root : Ptr) : Simulates (Same objects beside) (Prog.setRoot root)
    (Prog.setRoot root) fun _ _ => Same objects beside := by
  intro store memory same value after ran
  cases ran
  exact ⟨_, _, rfl, same.heap, rfl, same.aux⟩

theorem load (address : Ptr) : Simulates (Same objects beside) (Prog.load address)
    (Prog.load address) fun object counterpart store memory =>
      objects object counterpart ∧ Same objects beside store memory := by
  intro store memory same object after ran
  cases live : store.heap.get? address with
  | none => simp [Prog.load, live] at ran
  | some found =>
      rw [Prog.load_ok live] at ran
      cases ran
      obtain ⟨counterpart, there, related⟩ := same.heap.live live
      exact ⟨counterpart, memory, Prog.load_ok there, related, same⟩

theorem modify (address : Ptr) {change : N → Except Fault N} {counterchange : M → Except Fault M}
    (agree : ∀ object counterpart, objects object counterpart → ∀ changed, change object = .ok changed →
      ∃ other, counterchange counterpart = .ok other ∧ objects changed other) :
    Simulates (Same objects beside) (Prog.modify address change)
      (Prog.modify address counterchange) fun _ _ => Same objects beside := by
  intro store memory same value after ran
  cases live : store.heap.get? address with
  | none => simp [Prog.modify, live] at ran
  | some object =>
      cases changedEq : change object with
      | error fault => simp [Prog.modify, live, changedEq] at ran
      | ok changed =>
          rw [Prog.modify_ok live changedEq] at ran
          cases ran
          obtain ⟨counterpart, there, related⟩ := same.heap.live live
          obtain ⟨other, otherEq, stillRelated⟩ := agree _ _ related _ changedEq
          exact ⟨(), _, Prog.modify_ok there otherEq, same.heap.set live stillRelated, same.root,
            same.aux⟩

theorem malloc {object : N} {counterpart : M} (related : objects object counterpart) :
    Simulates (Same objects beside) (Prog.malloc object) (Prog.malloc counterpart)
      fun address other store memory => other = address ∧ Same objects beside store memory := by
  intro store memory same value after ran
  cases ran
  exact ⟨_, _, rfl, by rw [same.heap.size], same.heap.push related, same.root, same.aux⟩

end Simulates

end Same

/-! ### What is known about single objects -/

section At

variable {N M X Y α β : Type} {objects : N → M → Prop} {beside : X → Y → Prop}

/-- What is at an address of the two memories. -/
def Holding (address : Ptr) (object : N) (counterpart : M) (store : Store N X) (memory : Store M Y) :
    Prop :=
  store.heap.get? address = some object ∧ memory.heap.get? address = some counterpart

/-- The object at an address has a property. -/
def At (address : Ptr) (property : N → Prop) (store : Store N X) : Prop :=
  ∃ object, store.heap.get? address = some object ∧ property object

/-- Successful runs keep a fact about the memory. -/
def Preserves (fact : Store N X → Prop) (program : Prog N X α) : Prop :=
  ∀ ⦃store : Store N X⦄, fact store → ∀ ⦃value : α⦄ ⦃after : Store N X⦄,
    program store = .ok (value, after) → fact after

namespace Preserves

variable {fact : Store N X → Prop} {address : Ptr} {property : N → Prop}

theorem both {other : Store N X → Prop} {program : Prog N X α} (keeps : Preserves fact program)
    (keepsOther : Preserves other program) :
    Preserves (fun store => fact store ∧ other store) program :=
  fun _ facts _ _ ran => ⟨keeps facts.1 ran, keepsOther facts.2 ran⟩

theorem bind {program : Prog N X α} {rest : α → Prog N X β} (first : Preserves fact program)
    (second : ∀ value, Preserves fact (rest value)) : Preserves fact (program >>= rest) := by
  intro store known value after ran
  obtain ⟨between, middle, firstRan, restRan⟩ := bind_ok_inv ran
  exact second _ (first known firstRan) restRan

theorem modify {other : Ptr} {change : N → Except Fault N}
    (preserves : ∀ object changed, property object → change object = .ok changed → property changed) :
    Preserves (At address property) (Prog.modify other change : Prog N X Unit) := by
  intro store ⟨object, live, known⟩ value after ran
  cases liveThere : store.heap.get? other with
  | none => simp [Prog.modify, liveThere] at ran
  | some there =>
      cases changedEq : change there with
      | error fault => simp [Prog.modify, liveThere, changedEq] at ran
      | ok changed =>
          rw [Prog.modify_ok liveThere changedEq] at ran
          cases ran
          by_cases same : address = other
          · rw [same, liveThere, Option.some.injEq] at live
            refine ⟨changed, ?_, preserves there changed (live ▸ known) changedEq⟩
            rw [Heap.get?_set liveThere, if_pos same]
          · refine ⟨object, ?_, known⟩
            rw [Heap.get?_set liveThere, if_neg same, live]

theorem malloc (object : N) : Preserves (At address property) (Prog.malloc object : Prog N X Ptr) := by
  intro store ⟨old, live, known⟩ value after ran
  cases ran
  refine ⟨old, ?_, known⟩
  rw [Heap.get?_push, if_neg (Heap.ne_fresh_of_get? live), live]

end Preserves

namespace Simulates

variable {address : Ptr} {property : N → Prop} {program : Prog N X α} {code : Prog M Y β}
  {pre : Store N X → Store M Y → Prop} {post : α → β → Store N X → Store M Y → Prop}

variable {fact : Store N X → Prop}

/-- A fact about the first memory that is not needed. -/
theorem forget (simulates : Simulates pre program code post) :
    Simulates (fun store memory => fact store ∧ pre store memory) program code post :=
  fun _ _ related => simulates related.2

/-- A fact about the first memory that its program keeps. -/
theorem keep (simulates : Simulates pre program code post) (keeps : Preserves fact program) :
    Simulates (fun store memory => fact store ∧ pre store memory) program code
      fun value result store memory => fact store ∧ post value result store memory := by
  intro store memory related value after ran
  obtain ⟨result, final, codeRan, holds⟩ := simulates related.2 ran
  exact ⟨result, final, codeRan, keeps related.1 ran, holds⟩

/-- Reading an object something is known about. -/
theorem load_known (known : ∀ store, fact store → At address property store) :
    Simulates (fun store memory => fact store ∧ Same objects beside store memory)
      (Prog.load address) (Prog.load address) fun object counterpart store memory =>
        (property object ∧ objects object counterpart) ∧
          fact store ∧ Same objects beside store memory := by
  intro store memory ⟨facts, same⟩ value after ran
  obtain ⟨object, live, holds⟩ := known store facts
  rw [Prog.load_ok live] at ran
  cases ran
  obtain ⟨counterpart, there, related⟩ := same.heap.live live
  exact ⟨counterpart, memory, Prog.load_ok there, ⟨holds, related⟩, facts, same⟩

/-- Changing an object something is known about. -/
theorem modify_known (known : ∀ store, fact store → At address property store)
    {change : N → Except Fault N} {counterchange : M → Except Fault M}
    (keeps : Preserves fact (Prog.modify address change))
    (agree : ∀ object counterpart, property object → objects object counterpart → ∀ changed,
      change object = .ok changed →
      ∃ other, counterchange counterpart = .ok other ∧ objects changed other) :
    Simulates (fun store memory => fact store ∧ Same objects beside store memory)
      (Prog.modify address change) (Prog.modify address counterchange)
      fun _ _ store memory => fact store ∧ Same objects beside store memory := by
  intro store memory ⟨facts, same⟩ value after ran
  have stillFacts := keeps facts ran
  obtain ⟨object, live, holds⟩ := known store facts
  cases changedEq : change object with
  | error fault => simp [Prog.modify, live, changedEq] at ran
  | ok changed =>
      rw [Prog.modify_ok live changedEq] at ran
      cases ran
      obtain ⟨counterpart, there, related⟩ := same.heap.live live
      obtain ⟨other, otherEq, stillRelated⟩ := agree _ _ holds related _ changedEq
      exact ⟨(), _, Prog.modify_ok there otherEq, stillFacts, same.heap.set live stillRelated,
        same.root, same.aux⟩

/-- Allocating an object something is known about. -/
theorem malloc_known {object : N} {counterpart : M} (keeps : Preserves fact (Prog.malloc object))
    (holds : property object) (related : objects object counterpart) :
    Simulates (fun store memory => fact store ∧ Same objects beside store memory)
      (Prog.malloc object) (Prog.malloc counterpart) fun address other store memory =>
        other = address ∧ (At address property store ∧ fact store) ∧
          Same objects beside store memory := by
  intro store memory ⟨facts, same⟩ value after ran
  have stillFacts := keeps facts ran
  cases ran
  refine ⟨_, _, rfl, by rw [same.heap.size], ⟨⟨object, ?_, holds⟩, stillFacts⟩,
    same.heap.push related, same.root, same.aux⟩
  rw [Heap.get?_push, if_pos rfl]

end Simulates

end At

end StoredsBench.Lib
