/-
Module: StoredsBench.Lib.Bytes
Layer: Lib
Purpose: Objects as the bytes they occupy.  A `Layout` says how values of a type lie in memory and how
  they are read back; arrays and pairs of laid out values are laid out one behind the other.
  `overwrite` is `memcpy` into such an object: it goes on over whatever lies behind the place it starts
  at, and faults only where it leaves the object.
Trusted boundary: none
Main exports: Text, StoredByte, overwrite, Layout, Layout.array, Layout.pair, Layout.word,
  Layout.pointer, Layout.chars, Layout.overwrite_chars, Layout.overwrite_array, Layout.overwrite_pair
-/
import StoredsBench.Lib.CArray
import StoredsBench.Lib.CString
import Mathlib.Algebra.Group.Nat.Defs

namespace StoredsBench.Lib

/-- A string without NUL bytes, of any length. -/
@[ext] structure Text where
  chars : List UInt8
  noNul : 0 ∉ chars

/-- A byte of an object.  A stored pointer is kept as its parts, which no number is. -/
inductive StoredByte where
  | unwritten
  | byte (value : UInt8)
  | part (pointer : Ptr) (index : Nat)
deriving DecidableEq

/-- The bytes a copy of the string writes, with the terminator. -/
def Text.cells (text : Text) : List StoredByte := text.chars.map .byte ++ [.byte 0]

theorem Text.length_cells (text : Text) : text.cells.length = text.chars.length + 1 := by
  rw [cells, List.length_append, List.length_map]
  rfl

/-- `memcpy` to the place `offset` bytes behind the start of an object. -/
def overwrite (source : List StoredByte) (offset : Nat) (object : List StoredByte) :
    Except Fault (List StoredByte) :=
  if offset + source.length ≤ object.length then
    .ok (object.take offset ++ source ++ object.drop (offset + source.length))
  else .error .outOfBounds

section Overwriting

variable {source object written : List StoredByte} {offset : Nat}

theorem overwrite_ok (inside : offset + source.length ≤ object.length) :
    overwrite source offset object =
      .ok (object.take offset ++ source ++ object.drop (offset + source.length)) :=
  if_pos inside

/-- What lies in front of the object is not touched. -/
theorem overwrite_behind (front : List StoredByte) (ran : overwrite source offset object = .ok written) :
    overwrite source (front.length + offset) (front ++ object) = .ok (front ++ written) := by
  unfold overwrite at ran
  split at ran
  · next inside =>
      cases ran
      have fits : front.length + offset + source.length ≤ (front ++ object).length := by
        rw [List.length_append]
        omega
      rw [overwrite_ok fits, List.take_length_add_append, Nat.add_assoc, List.drop_length_add_append]
      simp only [List.append_assoc]
  · cases ran

/-- Neither is what lies behind it. -/
theorem overwrite_before (rest : List StoredByte) (ran : overwrite source offset object = .ok written) :
    overwrite source offset (object ++ rest) = .ok (written ++ rest) := by
  unfold overwrite at ran
  split at ran
  · next inside =>
      cases ran
      have fits : offset + source.length ≤ (object ++ rest).length := by
        rw [List.length_append]
        omega
      have start : offset ≤ object.length := by omega
      rw [overwrite_ok fits, List.take_append_of_le_length start, List.drop_append_of_le_length inside]
      simp only [List.append_assoc]
  · cases ran

end Overwriting

/-- How values of a type lie in memory. -/
structure Layout (α : Type) where
  size : Nat
  encode : α → List StoredByte
  decode : List StoredByte → α
  length_encode : ∀ value, (encode value).length = size
  decode_encode : ∀ value, decode (encode value) = value

namespace Layout

variable {α β : Type}

/-! ### Numbers and pointers -/

/-- The lowest bytes of a number, the lowest one first. -/
def bytesOf : (count number : Nat) → List UInt8
  | 0, _ => []
  | count + 1, number => UInt8.ofNat number :: bytesOf count (number / 256)

def numberOf : List UInt8 → Nat
  | [] => 0
  | byte :: rest => byte.toNat + 256 * numberOf rest

theorem length_bytesOf (count number : Nat) : (bytesOf count number).length = count := by
  induction count generalizing number with
  | zero => rfl
  | succ count inductionHypothesis =>
      rw [bytesOf, List.length_cons, inductionHypothesis]

theorem numberOf_bytesOf {count number : Nat} (fits : number < 256 ^ count) :
    numberOf (bytesOf count number) = number := by
  induction count generalizing number with
  | zero =>
      rw [pow_zero] at fits
      rw [Nat.lt_one_iff.mp fits]
      rfl
  | succ count inductionHypothesis =>
      have shorter : number / 256 < 256 ^ count := by
        apply Nat.div_lt_of_lt_mul
        rwa [pow_succ, Nat.mul_comm] at fits
      rw [bytesOf, numberOf, inductionHypothesis shorter, UInt8.toNat_ofNat']
      exact Nat.mod_add_div number 256

/-- The bytes of cells that all hold one. -/
def bytes? (cells : List StoredByte) : Option (List UInt8) :=
  cells.mapM fun cell =>
    match cell with
    | .byte value => some value
    | _ => none

theorem bytes?_map (bytes : List UInt8) : bytes? (bytes.map .byte) = some bytes := by
  induction bytes with
  | nil => rfl
  | cons byte bytes inductionHypothesis =>
      rw [bytes?] at inductionHypothesis ⊢
      rw [List.map_cons, List.mapM_cons, inductionHypothesis]
      rfl

/-- A `uint64_t` that may not have been written; one that was written in part is none. -/
def wordCells : Option UInt64 → List StoredByte
  | none => List.replicate 8 .unwritten
  | some word => (bytesOf 8 word.toNat).map .byte

def word : Layout (Option UInt64) where
  size := 8
  encode := wordCells
  decode := fun cells => (bytes? cells).map fun bytes => UInt64.ofNat (numberOf bytes)
  length_encode := by
    intro value
    cases value with
    | none => rfl
    | some word => rw [wordCells, List.length_map, length_bytesOf]
  decode_encode := by
    intro value
    cases value with
    | none => rfl
    | some word =>
        rw [wordCells, bytes?_map, Option.map_some, numberOf_bytesOf word.toNat_lt, UInt64.ofNat_toNat]

/-- A pointer that may not have been written.  It is read back from all of its parts only. -/
def pointerCells : Option Ptr → List StoredByte
  | none => List.replicate 8 .unwritten
  | some pointer => (List.range 8).map (.part pointer)

def pointerOf (cells : List StoredByte) : Option Ptr :=
  match cells with
  | .part pointer _ :: _ => if cells = pointerCells (some pointer) then some pointer else none
  | _ => none

def pointer : Layout (Option Ptr) where
  size := 8
  encode := pointerCells
  decode := pointerOf
  length_encode := by
    intro value
    cases value with
    | none => rfl
    | some pointer => rfl
  decode_encode := by
    intro value
    cases value with
    | none => rfl
    | some pointer => exact if_pos rfl

/-! ### Strings -/

def charCell : Option UInt8 → StoredByte
  | none => .unwritten
  | some value => .byte value

def charOf : StoredByte → Option UInt8
  | .byte value => some value
  | _ => none

theorem charOf_charCell (char : Option UInt8) : charOf (charCell char) = char := by
  cases char with
  | none => rfl
  | some value => rfl

def chars (capacity : Nat) : Layout (CharArray capacity) where
  size := capacity
  encode := fun array => array.bytes.map charCell
  decode := fun cells =>
    ⟨(List.range capacity).map fun index => cells[index]?.bind charOf, by simp⟩
  length_encode := by
    intro array
    rw [List.length_map, array.length_eq]
  decode_encode := by
    intro ⟨bytes, length⟩
    subst length
    congr 1
    apply List.ext_getElem
    · simp
    · intro index inRange inside
      simp [charOf_charCell, inside]

/-- A copy that stays in the array leaves the string there. -/
theorem overwrite_chars {capacity : Nat} (array : CharArray capacity) (source : CString capacity)
    {text : Text} (same : text.chars = source.chars) :
    overwrite text.cells 0 ((chars capacity).encode array) =
      .ok ((chars capacity).encode (array.copyString source)) := by
  have fits : 0 + text.cells.length ≤ ((chars capacity).encode array).length := by
    rw [text.length_cells, (chars capacity).length_encode, same, Nat.zero_add]
    exact source.fits
  have cells : text.cells = (source.chars.map some ++ [some 0]).map charCell := by
    rw [Text.cells, same, List.map_append, List.map_map]
    rfl
  rw [overwrite_ok fits, text.length_cells, same, cells]
  simp [chars, CharArray.copyString, charCell]

/-! ### One behind the other -/

def pair (first : Layout α) (second : Layout β) : Layout (α × β) where
  size := first.size + second.size
  encode := fun value => first.encode value.1 ++ second.encode value.2
  decode := fun cells => (first.decode (cells.take first.size), second.decode (cells.drop first.size))
  length_encode := by
    intro value
    rw [List.length_append, first.length_encode, second.length_encode]
  decode_encode := by
    intro value
    rw [List.take_left' (first.length_encode value.1), List.drop_left' (first.length_encode value.1),
      first.decode_encode, second.decode_encode]

def encodeAll (layout : Layout α) (items : List α) : List StoredByte := items.flatMap layout.encode

def decodeAll (layout : Layout α) : (count : Nat) → List StoredByte → List α
  | 0, _ => []
  | count + 1, cells =>
      layout.decode (cells.take layout.size) :: decodeAll layout count (cells.drop layout.size)

theorem length_encodeAll (layout : Layout α) (items : List α) :
    (layout.encodeAll items).length = items.length * layout.size := by
  induction items with
  | nil => exact (Nat.zero_mul _).symm
  | cons item items inductionHypothesis =>
      rw [encodeAll] at inductionHypothesis ⊢
      rw [List.flatMap_cons, List.length_append, layout.length_encode, inductionHypothesis,
        List.length_cons, Nat.succ_mul, Nat.add_comm]

theorem length_decodeAll (layout : Layout α) (count : Nat) (cells : List StoredByte) :
    (layout.decodeAll count cells).length = count := by
  induction count generalizing cells with
  | zero => rfl
  | succ count inductionHypothesis => rw [decodeAll, List.length_cons, inductionHypothesis]

theorem decodeAll_encodeAll (layout : Layout α) (items : List α) :
    layout.decodeAll items.length (layout.encodeAll items) = items := by
  induction items with
  | nil => rfl
  | cons item items inductionHypothesis =>
      have cells : layout.encodeAll (item :: items) = layout.encode item ++ layout.encodeAll items :=
        List.flatMap_cons
      rw [cells, List.length_cons, decodeAll, List.take_left' (layout.length_encode item),
        List.drop_left' (layout.length_encode item), layout.decode_encode, inductionHypothesis]

/-- A C array of laid out slots. -/
def array (layout : Layout (Option α)) (capacity : Nat) : Layout (CArray α capacity) where
  size := capacity * layout.size
  encode := fun array => layout.encodeAll array.slots
  decode := fun cells => ⟨layout.decodeAll capacity cells, length_decodeAll layout capacity cells⟩
  length_encode := by
    intro array
    rw [length_encodeAll, array.length_eq]
  decode_encode := by
    intro ⟨slots, length⟩
    subst length
    simp only [decodeAll_encodeAll]

/-! ### Copies inside one of the parts -/

variable {source : List StoredByte} {offset : Nat}

theorem overwrite_pair {first : Layout α} {value changed : α} (second : Layout β) (rest : β)
    (ran : overwrite source offset (first.encode value) = .ok (first.encode changed)) :
    overwrite source offset ((first.pair second).encode (value, rest)) =
      .ok ((first.pair second).encode (changed, rest)) :=
  overwrite_before (second.encode rest) ran

/-- A copy that stays in one item changes this item. -/
theorem overwrite_encodeAll {layout : Layout α} {items : List α} {index : Nat} {value changed : α}
    (stored : items[index]? = some value)
    (ran : overwrite source offset (layout.encode value) = .ok (layout.encode changed)) :
    overwrite source (index * layout.size + offset) (layout.encodeAll items) =
      .ok (layout.encodeAll (items.set index changed)) := by
  induction items generalizing index with
  | nil => cases stored
  | cons item items inductionHypothesis =>
      cases index with
      | zero =>
          cases stored
          rw [Nat.zero_mul, Nat.zero_add]
          exact overwrite_before (layout.encodeAll items) ran
      | succ index =>
          have start : (index + 1) * layout.size + offset =
              (layout.encode item).length + (index * layout.size + offset) := by
            rw [layout.length_encode, Nat.succ_mul]
            omega
          rw [start]
          exact overwrite_behind (layout.encode item) (inductionHypothesis stored)

/-- A copy that stays in one slot changes this slot. -/
theorem overwrite_array {layout : Layout (Option α)} {capacity : Nat} {array : CArray α capacity}
    {index : Nat} {value changed : α} (stored : array.at? index = some value)
    (ran : overwrite source offset (layout.encode (some value)) = .ok (layout.encode (some changed))) :
    overwrite source (index * layout.size + offset) ((layout.array capacity).encode array) =
      .ok ((layout.array capacity).encode (array.put index changed)) :=
  overwrite_encodeAll (Option.join_eq_some_iff.mp stored) ran

end Layout

end StoredsBench.Lib
