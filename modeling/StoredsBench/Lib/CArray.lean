/-
Module: StoredsBench.Lib.CArray
Layer: Lib
Purpose: Fixed-size arrays whose slots start out unwritten, and the loops that search, shift and
  copy them. A read outside the array or of an unwritten slot faults, so a loop that returns `ok`
  stayed inside the written part. `Prefix view array items` says that the first slots show
  `items` through `view`; each loop has one lemma that gives its result in terms of that list.
Trusted boundary: none
Main exports: CArray, CArray.get, CArray.set, CArray.scanUp, CArray.scanDown, CArray.shiftUp,
  CArray.shiftUpWhile, CArray.copyFrom, CArray.Prefix
-/
import StoredsBench.Lib.Memory
import Mathlib.Data.List.DropRight

namespace StoredsBench.Lib

/-- A C array of `capacity` slots; `none` marks a slot nothing was ever stored to. -/
structure CArray (α : Type) (capacity : Nat) where
  slots : List (Option α)
  length_eq : slots.length = capacity
deriving DecidableEq

namespace CArray

variable {α β : Type} {capacity : Nat}

def unwritten (α : Type) (capacity : Nat) : CArray α capacity :=
  ⟨List.replicate capacity none, by simp⟩

/-- The contents of a written slot. -/
def at? (array : CArray α capacity) (index : Nat) : Option α := array.slots[index]?.join

def put (array : CArray α capacity) (index : Nat) (value : α) : CArray α capacity :=
  ⟨array.slots.set index (some value), by simp [array.length_eq]⟩

/-- `array[index]` as a value. -/
def get (array : CArray α capacity) (index : Nat) : Except Fault α :=
  if index < capacity then
    match array.at? index with
    | some value => .ok value
    | none => .error .uninitialised
  else .error .outOfBounds

/-- `array[index] = value`. -/
def set (array : CArray α capacity) (index : Nat) (value : α) : Except Fault (CArray α capacity) :=
  if index < capacity then .ok (array.put index value) else .error .outOfBounds

/-- `while (index < stop && holds(array[index])) index += 1`, from `index` with `remaining`
slots below `stop`. -/
def scanUpFrom (array : CArray α capacity) (holds : α → Bool) :
    (remaining index : Nat) → Except Fault Nat
  | 0, index => .ok index
  | remaining + 1, index => do
      let value ← array.get index
      if holds value then scanUpFrom array holds remaining (index + 1) else .ok index

/-- `int i = 0; while (i < stop && holds(array[i])) i += 1;` -/
def scanUp (array : CArray α capacity) (holds : α → Bool) (stop : Nat) : Except Fault Nat :=
  array.scanUpFrom holds stop 0

/-- `int i = stop - 1; while (i >= 0 && holds(array[i])) i -= 1;`  The result is `i + 1`. -/
def scanDown (array : CArray α capacity) (holds : α → Bool) : (stop : Nat) → Except Fault Nat
  | 0 => .ok 0
  | stop + 1 => do
      let value ← array.get stop
      if holds value then scanDown array holds stop else .ok (stop + 1)

/-- `for (int i = first + count - 1; i >= first; i -= 1) array[i + 1] = array[i];` -/
def shiftUp (first : Nat) : (count : Nat) → CArray α capacity → Except Fault (CArray α capacity)
  | 0, array => .ok array
  | count + 1, array => do
      let value ← array.get (first + count)
      let array ← array.set (first + count + 1) value
      shiftUp first count array

/-- `int i = stop - 1; while (i >= 0 && holds(array[i])) { array[i + 1] = array[i]; i -= 1; }`
The first result is `i + 1`. -/
def shiftUpWhile (holds : α → Bool) :
    (stop : Nat) → CArray α capacity → Except Fault (Nat × CArray α capacity)
  | 0, array => .ok (0, array)
  | stop + 1, array => do
      let value ← array.get stop
      if holds value then
        let array ← array.set (stop + 1) value
        shiftUpWhile holds stop array
      else .ok (stop + 1, array)

/-- The same loop with a second array whose slots move along: `beside[i + 1] = beside[i];`. -/
def shiftBothUpWhile {size : Nat} (holds : α → Bool) :
    (stop : Nat) → CArray α capacity → CArray β size →
      Except Fault (Nat × CArray α capacity × CArray β size)
  | 0, array, beside => .ok (0, array, beside)
  | stop + 1, array, beside => do
      let value ← array.get stop
      if holds value then
        let array ← array.set (stop + 1) value
        let other ← beside.get stop
        let beside ← beside.set (stop + 1) other
        shiftBothUpWhile holds stop array beside
      else .ok (stop + 1, array, beside)

/-- `for (int i = 0; i < count; i += 1) target[i] = source[i + offset];` -/
def copyFrom (source : CArray α capacity) (offset : Nat) :
    (count : Nat) → CArray α capacity → Except Fault (CArray α capacity)
  | 0, target => .ok target
  | count + 1, target => do
      let target ← copyFrom source offset count target
      let value ← source.get (count + offset)
      target.set count value

/-! ### Lists cut at a position -/

theorem insertIdx_at_length (before after : List α) (item : α) :
    (before ++ after).insertIdx before.length item = before ++ item :: after := by
  induction before with
  | nil => rfl
  | cons head before inductionHypothesis =>
      simpa [List.insertIdx_succ_cons] using inductionHypothesis

theorem modify_at_length (before after : List α) (item : α) (change : α → α) :
    (before ++ item :: after).modify before.length change = before ++ change item :: after := by
  induction before with
  | nil => rfl
  | cons head before inductionHypothesis => simpa using inductionHypothesis

/-! ### Slots -/

@[simp] theorem at?_unwritten (index : Nat) : (unwritten α capacity).at? index = none := by
  by_cases inside : index < capacity
  · simp [at?, unwritten, inside]
  · simp [at?, unwritten, inside]

/-- The contents of its slots determine an array. -/
theorem ext_at? {array other : CArray α capacity} (same : ∀ index, array.at? index = other.at? index) :
    array = other := by
  obtain ⟨slots, length⟩ := array
  obtain ⟨otherSlots, otherLength⟩ := other
  have slotsEq : slots = otherSlots := by
    apply List.ext_getElem (length.trans otherLength.symm)
    intro index inside otherInside
    have slot := same index
    simpa [at?, inside, otherInside] using slot
  subst slotsEq
  rfl

theorem at?_put (array : CArray α capacity) {index : Nat} (inside : index < capacity) (value : α)
    (other : Nat) :
    (array.put index value).at? other = if other = index then some value else array.at? other := by
  have inSlots : index < array.slots.length := by rw [array.length_eq]; exact inside
  by_cases same : other = index
  · subst same
    simp [at?, put, inSlots]
  · simp [at?, put, List.getElem?_set_ne (Ne.symm same), same]

theorem lt_of_at? {array : CArray α capacity} {index : Nat} {value : α}
    (written : array.at? index = some value) : index < capacity := by
  by_contra outside
  have beyond : array.slots.length ≤ index := by rw [array.length_eq]; omega
  simp [at?, List.getElem?_eq_none beyond] at written

theorem get_ok {array : CArray α capacity} {index : Nat} {value : α}
    (written : array.at? index = some value) : array.get index = .ok value := by
  simp [get, written, lt_of_at? written]

theorem get_inv {array : CArray α capacity} {index : Nat} {value : α} (read : array.get index = .ok value) :
    index < capacity ∧ array.at? index = some value := by
  unfold get at read
  split at read
  · rename_i inside
    cases found : array.at? index with
    | none =>
        rw [found] at read
        cases read
    | some held =>
        rw [found] at read
        cases read
        exact ⟨inside, rfl⟩
  · cases read

theorem set_inv {array written : CArray α capacity} {index : Nat} {value : α}
    (ran : array.set index value = .ok written) : index < capacity ∧ written = array.put index value := by
  unfold set at ran
  split at ran
  · rename_i inside
    cases ran
    exact ⟨inside, rfl⟩
  · cases ran

theorem set_ok {index : Nat} (inside : index < capacity) (array : CArray α capacity) (value : α) :
    array.set index value = .ok (array.put index value) := by
  simp [set, inside]

/-- The first slots of `array` show `items` through `view`. -/
def Prefix (view : α → Option β) (array : CArray α capacity) (items : List β) : Prop :=
  ∀ index item, items[index]? = some item →
    ∃ value, array.at? index = some value ∧ view value = some item

namespace Prefix

variable {view : α → Option β} {array : CArray α capacity} {items : List β}

theorem nil : Prefix view array [] := by
  intro index item found
  simp at found

/-- The slots of the items are written. -/
theorem written (shown : Prefix view array items) {index : Nat} (inside : index < items.length) :
    ∃ value, array.at? index = some value := by
  obtain ⟨value, slot, _⟩ := shown index _ (List.getElem?_eq_getElem inside)
  exact ⟨value, slot⟩

theorem length_le (shown : Prefix view array items) : items.length ≤ capacity := by
  cases items with
  | nil => exact Nat.zero_le capacity
  | cons first rest =>
      obtain ⟨value, slot⟩ := shown.written (show rest.length < (first :: rest).length by simp)
      exact lt_of_at? slot

theorem take (shown : Prefix view array items) (count : Nat) :
    Prefix view array (items.take count) := by
  intro index item found
  rw [List.getElem?_take] at found
  split at found
  · exact shown index item found
  · cases found

/-- Agreement on the shown slots is all that matters. -/
theorem congr (shown : Prefix view array items) {other : CArray α capacity}
    (same : ∀ index < items.length, other.at? index = array.at? index) :
    Prefix view other items := by
  intro index item found
  have inside : index < items.length := (List.getElem?_eq_some_iff.mp found).1
  obtain ⟨value, written, viewed⟩ := shown index item found
  exact ⟨value, by rw [same index inside, written], viewed⟩

/-- Overwrite a shown slot. -/
theorem put_set (shown : Prefix view array items) {index : Nat} {value : α} {item : β}
    (inside : index < items.length) (viewed : view value = some item) :
    Prefix view (array.put index value) (items.set index item) := by
  intro other otherItem found
  have bound : index < capacity := Nat.lt_of_lt_of_le inside shown.length_le
  rw [at?_put array bound]
  by_cases same : other = index
  · subst same
    rw [List.getElem?_set_self inside, Option.some.injEq] at found
    subst found
    exact ⟨value, by simp, viewed⟩
  · rw [List.getElem?_set_ne (Ne.symm same)] at found
    obtain ⟨old, written, oldViewed⟩ := shown other otherItem found
    exact ⟨old, by simp [same, written], oldViewed⟩

/-- Overwrite a written slot, shown or not. -/
theorem put_modify (shown : Prefix view array items) {index : Nat} {value changed : α}
    {change : β → β} (written : array.at? index = some value)
    (viewed : ∀ item, view value = some item → view changed = some (change item)) :
    Prefix view (array.put index changed) (items.modify index change) := by
  intro other item found
  rw [at?_put array (lt_of_at? written)]
  rw [List.getElem?_modify, Option.map_eq_map, Option.map_eq_some_iff] at found
  obtain ⟨old, oldFound, itemEq⟩ := found
  obtain ⟨stored, storedAt, storedViewed⟩ := shown other old oldFound
  by_cases same : index = other
  · subst same
    rw [written, Option.some.injEq] at storedAt
    subst storedAt
    rw [if_pos rfl] at itemEq ⊢
    exact ⟨changed, rfl, by rw [viewed old storedViewed, itemEq]⟩
  · rw [if_neg same] at itemEq
    rw [if_neg (Ne.symm same)]
    exact ⟨stored, storedAt, by rw [storedViewed, itemEq]⟩

theorem map {γ : Type} {narrower : α → Option γ} {project : β → γ}
    (shown : Prefix view array items)
    (weaker : ∀ value item, view value = some item → narrower value = some (project item)) :
    Prefix narrower array (items.map project) := by
  intro index item found
  rw [List.getElem?_map, Option.map_eq_some_iff] at found
  obtain ⟨original, originalFound, rfl⟩ := found
  obtain ⟨value, written, viewed⟩ := shown index original originalFound
  exact ⟨value, written, weaker value original viewed⟩

end Prefix

/-! ### Searching -/

section Searching

variable {view : α → Option β} {array : CArray α capacity} {items : List β}
  {holds : α → Bool} {holdsItem : β → Bool}

theorem scanUpFrom_ok (array : CArray α capacity)
    (agree : ∀ value item, view value = some item → holds value = holdsItem item) :
    ∀ (items : List β) (index : Nat),
      (∀ offset item, items[offset]? = some item →
        ∃ value, array.at? (index + offset) = some value ∧ view value = some item) →
      array.scanUpFrom holds items.length index = .ok (index + (items.takeWhile holdsItem).length)
  | [], index, _ => rfl
  | item :: items, index, shown => by
      obtain ⟨value, written, viewed⟩ := shown 0 item rfl
      have step : array.get index = .ok value := get_ok written
      have rest := scanUpFrom_ok array agree items (index + 1)
        (fun offset later found => by
          have := shown (offset + 1) later (by simpa using found)
          rwa [show index + (offset + 1) = index + 1 + offset by omega] at this)
      rw [List.length_cons, scanUpFrom, step]
      simp only [bind, Except.bind, agree value item viewed]
      cases continues : holdsItem item with
      | false => simp [continues]
      | true =>
          simp only [if_true, rest, List.takeWhile_cons, continues, List.length_cons]
          congr 1
          omega

/-- The upward search stops at the first item that fails the test. -/
theorem scanUp_ok (shown : Prefix view array items)
    (agree : ∀ value item, view value = some item → holds value = holdsItem item) :
    array.scanUp holds items.length = .ok (items.takeWhile holdsItem).length := by
  have ran := scanUpFrom_ok array agree items 0
    (fun offset item found => by simpa using shown offset item found)
  simpa [scanUp] using ran

/-- The downward search stops above the last item that fails the test. -/
theorem scanDown_ok (shown : Prefix view array items)
    (agree : ∀ value item, view value = some item → holds value = holdsItem item) :
    array.scanDown holds items.length = .ok (items.rdropWhile holdsItem).length := by
  induction items using List.reverseRecOn with
  | nil => rfl
  | append_singleton items last inductionHypothesis =>
      obtain ⟨value, written, viewed⟩ := shown items.length last (by simp)
      have shorter : Prefix view array items := by simpa using shown.take items.length
      rw [List.length_append, List.length_singleton, scanDown, get_ok written]
      simp only [bind, Except.bind, agree value last viewed]
      cases continues : holdsItem last with
      | false => rw [List.rdropWhile_concat_neg _ _ _ (by simp [continues])]; simp
      | true =>
          rw [List.rdropWhile_concat_pos _ _ _ continues]
          simpa using inductionHypothesis shorter

end Searching

/-! ### Shifting -/

/-- The loop moves `count` slots up by one and leaves every other slot alone. -/
theorem shiftUp_ok (first : Nat) : ∀ (count : Nat) (array : CArray α capacity),
    (∀ index, first ≤ index → index < first + count → ∃ value, array.at? index = some value) →
    first + count < capacity →
    ∃ shifted, shiftUp first count array = .ok shifted ∧
      ∀ index, shifted.at? index =
        if first < index ∧ index ≤ first + count then array.at? (index - 1) else array.at? index
  | 0, array, _, _ => by
      refine ⟨array, rfl, fun index => ?_⟩
      rw [if_neg (by omega)]
  | count + 1, array, written, room => by
      obtain ⟨value, read⟩ := written (first + count) (by omega) (by omega)
      have inside : first + count + 1 < capacity := by omega
      obtain ⟨shifted, ran, contents⟩ :=
        shiftUp_ok first count (array.put (first + count + 1) value)
          (fun index low high => by
            rw [at?_put array inside, if_neg (by omega)]
            exact written index low (by omega))
          (by omega)
      refine ⟨shifted, ?_, fun index => ?_⟩
      · rw [shiftUp, get_ok read]
        simp only [bind, Except.bind, set_ok inside]
        exact ran
      · rw [contents index, at?_put array inside, at?_put array inside]
        by_cases top : index = first + count + 1
        · subst top
          rw [if_neg (by omega), if_pos rfl, if_pos (by omega)]
          simp [read]
        · by_cases moved : first < index ∧ index ≤ first + count
          · rw [if_pos moved, if_neg (by omega), if_pos (by omega)]
          · rw [if_neg moved, if_neg top, if_neg (by omega)]

/-- Shifting up from `index` and then writing slot `index` inserts an item. -/
theorem shiftUp_put_prefix {view : α → Option β} {array : CArray α capacity} {items : List β}
    (shown : Prefix view array items) {index : Nat} (within : index ≤ items.length)
    (room : items.length < capacity) :
    ∃ shifted, shiftUp index (items.length - index) array = .ok shifted ∧
      ∀ value item, view value = some item →
        Prefix view (shifted.put index value) (items.insertIdx index item) := by
  obtain ⟨shifted, ran, contents⟩ :=
    shiftUp_ok index (items.length - index) array
      (fun position low high => shown.written (by omega))
      (by omega)
  refine ⟨shifted, ran, ?_⟩
  intro value item viewed position shownItem found
  rw [at?_put shifted (by omega)]
  rw [List.getElem?_insertIdx] at found
  by_cases below : position < index
  · rw [if_pos below] at found
    obtain ⟨old, written, oldViewed⟩ := shown position shownItem found
    exact ⟨old, by rw [if_neg (by omega), contents, if_neg (by omega), written], oldViewed⟩
  · rw [if_neg below] at found
    by_cases here : position = index
    · subst here
      rw [if_pos rfl, if_pos within, Option.some.injEq] at found
      subst found
      exact ⟨value, by simp, viewed⟩
    · rw [if_neg here] at found
      have inside : position - 1 < items.length := (List.getElem?_eq_some_iff.mp found).1
      obtain ⟨old, written, oldViewed⟩ := shown (position - 1) shownItem found
      exact ⟨old, by rw [if_neg here, contents, if_pos (by omega), written], oldViewed⟩

theorem scanDown_le {holds : α → Bool} {array : CArray α capacity} :
    ∀ {stop index : Nat}, array.scanDown holds stop = .ok index → index ≤ stop
  | 0, index, found => by
      cases found
      exact Nat.le_refl _
  | stop + 1, index, found => by
      rw [scanDown] at found
      cases read : array.get stop with
      | error fault => simp [read, bind, Except.bind] at found
      | ok value =>
          simp only [read, bind, Except.bind] at found
          cases continues : holds value with
          | false =>
              simp only [continues, Bool.false_eq_true, if_false, Except.ok.injEq] at found
              omega
          | true =>
              simp only [continues, if_true] at found
              have := scanDown_le found
              omega

theorem get_put_of_ne (array : CArray α capacity) {index other : Nat} (inside : index < capacity)
    (different : other ≠ index) (value : α) :
    (array.put index value).get other = array.get other := by
  simp [get, at?_put array inside, different]

/-- A search below a slot does not see what is written to it. -/
theorem scanDown_put_above {holds : α → Bool} {array : CArray α capacity} {position : Nat}
    (value : α) (inside : position < capacity) : ∀ (stop : Nat), stop ≤ position →
    (array.put position value).scanDown holds stop = array.scanDown holds stop
  | 0, _ => rfl
  | stop + 1, above => by
      rw [scanDown, scanDown, get_put_of_ne array inside (by omega)]
      simp only [scanDown_put_above value inside stop (by omega)]

/-- The conditional shift finds the index the downward search finds and shifts from there. -/
theorem shiftUpWhile_eq {holds : α → Bool} : ∀ {stop : Nat} {array : CArray α capacity} {index : Nat},
    array.scanDown holds stop = .ok index → stop < capacity →
    shiftUpWhile holds stop array =
      (shiftUp index (stop - index) array).map fun shifted => (index, shifted)
  | 0, array, index, found, _ => by
      cases found
      rfl
  | stop + 1, array, index, found, room => by
      rw [scanDown] at found
      cases read : array.get stop with
      | error fault => simp [read, bind, Except.bind] at found
      | ok value =>
          simp only [read, bind, Except.bind] at found
          rw [shiftUpWhile, read]
          simp only [bind, Except.bind]
          cases continues : holds value with
          | false =>
              simp only [continues, Bool.false_eq_true, if_false, Except.ok.injEq] at found ⊢
              subst found
              simp [shiftUp, Except.map]
          | true =>
              simp only [continues, if_true] at found ⊢
              rw [set_ok room]
              have inside : index ≤ stop := scanDown_le found
              have unchanged : (array.put (stop + 1) value).scanDown holds stop = .ok index := by
                rw [← found]
                exact scanDown_put_above _ room _ (Nat.le_succ _)
              simp only [shiftUpWhile_eq unchanged (by omega)]
              obtain ⟨count, countEq⟩ : ∃ count, stop + 1 - index = count + 1 :=
                ⟨stop - index, by omega⟩
              have top : index + count = stop := by omega
              rw [countEq, shiftUp, top, read]
              simp only [bind, Except.bind, set_ok room]
              rw [show stop - index = count by omega]

/-! ### Copying -/

/-- The copy loop fills the first `count` slots from the source and leaves the others alone. -/
theorem copyFrom_ok (source : CArray α capacity) (offset : Nat) :
    ∀ (count : Nat) (target : CArray α capacity),
      (∀ index < count, ∃ value, source.at? (index + offset) = some value) → count ≤ capacity →
      ∃ copied, copyFrom source offset count target = .ok copied ∧
        ∀ index, copied.at? index =
          if index < count then source.at? (index + offset) else target.at? index
  | 0, target, _, _ => ⟨target, rfl, fun index => by rw [if_neg (by omega)]⟩
  | count + 1, target, written, room => by
      obtain ⟨copied, ran, contents⟩ := copyFrom_ok source offset count target
        (fun index below => written index (by omega)) (by omega)
      obtain ⟨value, read⟩ := written count (by omega)
      have inside : count < capacity := by omega
      refine ⟨copied.put count value, ?_, fun index => ?_⟩
      · rw [copyFrom, ran]
        simp only [bind, Except.bind, get_ok read, set_ok inside]
      · rw [at?_put copied inside, contents]
        by_cases here : index = count
        · subst here
          rw [if_pos rfl, if_pos (by omega), read]
        · rw [if_neg here]
          by_cases below : index < count
          · rw [if_pos below, if_pos (by omega)]
          · rw [if_neg below, if_neg (by omega)]

/-- Copying `count` slots from `offset` copies that segment of the shown items. -/
theorem copyFrom_prefix {view : α → Option β} {source : CArray α capacity} {items : List β}
    (shown : Prefix view source items) {offset count : Nat} (target : CArray α capacity)
    (within : offset + count ≤ items.length) :
    ∃ copied, copyFrom source offset count target = .ok copied ∧
      Prefix view copied ((items.drop offset).take count) := by
  have room := shown.length_le
  obtain ⟨copied, ran, contents⟩ := copyFrom_ok source offset count target
    (fun index below => shown.written (by omega))
    (by omega)
  refine ⟨copied, ran, ?_⟩
  intro index item found
  rw [List.getElem?_take] at found
  split at found
  · rename_i below
    rw [List.getElem?_drop, Nat.add_comm] at found
    obtain ⟨value, written, viewed⟩ := shown (index + offset) item found
    exact ⟨value, by rw [contents, if_pos below, written], viewed⟩
  · cases found

end CArray

end StoredsBench.Lib
