/-
Module: StoredsBench.Lib.CString
Layer: Lib
Purpose: NUL-terminated strings in fixed `char` arrays. A byte that was never written is
  `none`, so reading a string out of an array fails on garbage and on a missing terminator.
  `CString capacity` carries the proof that the string and its terminator fit, which makes the
  copy `memcpy(dst, src, strlen(src) + 1)` total; the bytes behind the terminator keep whatever
  the array held before.
Trusted boundary: none
Main exports: CString, CharArray, CharArray.copyString, CharArray.string?, string?_copyString,
  CharArray.Filled
-/
import Mathlib.Data.List.Basic
import Mathlib.Data.List.Forall2
import Mathlib.Tactic.Common

namespace StoredsBench.Lib

/-- A string without NUL bytes that fits into `capacity` bytes together with its terminator. -/
@[ext] structure CString (capacity : Nat) where
  chars : List UInt8
  noNul : 0 ∉ chars
  fits : chars.length < capacity
deriving DecidableEq

/-- The contents of a `char[capacity]`; `none` marks a byte nothing was ever stored to. -/
structure CharArray (capacity : Nat) where
  bytes : List (Option UInt8)
  length_eq : bytes.length = capacity
deriving DecidableEq

/-- Bytes up to the first NUL; fails on an unwritten byte and on a missing terminator. -/
def readString : List (Option UInt8) → Option (List UInt8)
  | [] => none
  | none :: _ => none
  | some byte :: rest => if byte = 0 then some [] else (readString rest).map (byte :: ·)

theorem readString_terminated {chars : List UInt8} (noNul : 0 ∉ chars)
    (rest : List (Option UInt8)) :
    readString (chars.map some ++ some 0 :: rest) = some chars := by
  induction chars with
  | nil => simp [readString]
  | cons byte chars inductionHypothesis =>
      have nonzero : byte ≠ 0 := fun same => noNul (by simp [same])
      have tailNoNul : 0 ∉ chars := fun member => noNul (List.mem_cons_of_mem byte member)
      simp [readString, nonzero, inductionHypothesis tailNoNul]

theorem readString_wellFormed {bytes : List (Option UInt8)} {chars : List UInt8}
    (read : readString bytes = some chars) : 0 ∉ chars ∧ chars.length < bytes.length := by
  induction bytes generalizing chars with
  | nil => simp [readString] at read
  | cons head rest inductionHypothesis =>
      cases head with
      | none => simp [readString] at read
      | some byte =>
          by_cases nul : byte = 0
          · simp only [readString, nul, if_true, Option.some.injEq] at read
            subst read
            simp
          · simp only [readString, nul, if_false, Option.map_eq_some_iff] at read
            obtain ⟨tail, tailRead, rfl⟩ := read
            obtain ⟨tailNoNul, tailShort⟩ := inductionHypothesis tailRead
            refine ⟨?_, by simpa using tailShort⟩
            simp only [List.mem_cons, not_or]
            exact ⟨fun same => nul same.symm, tailNoNul⟩

/-- A string that was read lies in front of its terminator. -/
theorem readString_terminator {bytes : List (Option UInt8)} {chars : List UInt8}
    (read : readString bytes = some chars) : bytes[chars.length]? = some (some 0) := by
  induction bytes generalizing chars with
  | nil => simp [readString] at read
  | cons head rest inductionHypothesis =>
      cases head with
      | none => simp [readString] at read
      | some byte =>
          unfold readString at read
          split at read
          · rename_i nul
            cases read
            rw [nul]
            rfl
          · obtain ⟨tail, tailRead, rfl⟩ := Option.map_eq_some_iff.mp read
            exact inductionHypothesis tailRead

/-- The first `count` bytes of a string. -/
def CString.take {capacity : Nat} (source : CString capacity) (count : Nat) : CString capacity where
  chars := source.chars.take count
  noNul := fun member => source.noNul (List.mem_of_mem_take member)
  fits := by
    rw [List.length_take]
    exact Nat.lt_of_le_of_lt (Nat.min_le_right _ _) source.fits

/-- A written byte stays as it is; an unwritten one may be anything. -/
def Keeps (byte other : Option UInt8) : Prop := ∀ value, byte = some value → other = some value

theorem Keeps.refl (byte : Option UInt8) : Keeps byte byte := fun _ found => found

theorem readString_keeps {bytes others : List (Option UInt8)} {chars : List UInt8}
    (keeps : List.Forall₂ Keeps bytes others) (read : readString bytes = some chars) :
    readString others = some chars := by
  induction keeps generalizing chars with
  | nil => exact read
  | @cons byte other bytes others same _ inductionHypothesis =>
      cases byte with
      | none => simp [readString] at read
      | some byte =>
          rw [same byte rfl]
          unfold readString at read ⊢
          split
          · rename_i nul
            rwa [if_pos nul] at read
          · rename_i nul
            rw [if_neg nul] at read
            obtain ⟨tail, tailRead, rfl⟩ := Option.map_eq_some_iff.mp read
            rw [inductionHypothesis tailRead]
            rfl

namespace CharArray

variable {capacity : Nat}

/-- Freshly allocated memory. -/
def unwritten (capacity : Nat) : CharArray capacity :=
  ⟨List.replicate capacity none, by simp⟩

theorem ext_bytes {array other : CharArray capacity}
    (same : ∀ offset, array.bytes.getD offset none = other.bytes.getD offset none) : array = other := by
  obtain ⟨bytes, length⟩ := array
  obtain ⟨otherBytes, otherLength⟩ := other
  have bytesEq : bytes = otherBytes := by
    apply List.ext_getElem (length.trans otherLength.symm)
    intro offset inside otherInside
    have byte := same offset
    simpa [List.getD_eq_getElem?_getD, inside, otherInside] using byte
  subst bytesEq
  rfl

/-- `memcpy(target, source, strlen(source) + 1)`, and `strcpy(target, source)`. -/
def copyString (target : CharArray capacity) (source : CString capacity) : CharArray capacity where
  bytes := source.chars.map some ++ some 0 :: target.bytes.drop (source.chars.length + 1)
  length_eq := by
    have fits := source.fits
    simp only [List.length_append, List.length_map, List.length_cons, List.length_drop,
      target.length_eq]
    omega

/-- A copy leaves the bytes behind the terminator alone. -/
theorem copyString_behind (target : CharArray capacity) (source : CString capacity) {offset : Nat}
    (behind : source.chars.length + 1 ≤ offset) :
    (target.copyString source).bytes[offset]? = target.bytes[offset]? := by
  have bytes : (target.copyString source).bytes =
      (source.chars.map some ++ [some 0]) ++ target.bytes.drop (source.chars.length + 1) := by
    simp [copyString]
  obtain ⟨rest, rfl⟩ := Nat.exists_eq_add_of_le behind
  rw [bytes, List.getElem?_append_right (by simp), List.getElem?_drop]
  simp

/-- A copy ends with a terminator. -/
theorem copyString_terminator (target : CharArray capacity) (source : CString capacity) :
    (target.copyString source).bytes[source.chars.length]? = some (some 0) := by
  rw [copyString, List.getElem?_append_right (by simp)]
  simp

/-- In front of the terminator a copy has the bytes of the string. -/
theorem copyString_front (target : CharArray capacity) (source : CString capacity) {offset : Nat}
    (inside : offset < source.chars.length) :
    (target.copyString source).bytes[offset]? = (source.chars[offset]?).map some := by
  rw [copyString, List.getElem?_append_left (by simpa using inside), List.getElem?_map]

/-- A copy of a string that is cut off in place changes the byte where it is cut. -/
theorem copyString_take (target : CharArray capacity) (source : CString capacity) {count offset : Nat}
    (inside : count < source.chars.length) (elsewhere : offset ≠ count) :
    ((target.copyString source).copyString (source.take count)).bytes[offset]? =
      (target.copyString source).bytes[offset]? := by
  have length : (source.take count).chars.length = count := by
    simp [CString.take, Nat.le_of_lt inside]
  rcases Nat.lt_or_gt_of_ne elsewhere with before | behind
  · rw [copyString_front _ _ (by rwa [length]), copyString_front _ _ (Nat.lt_trans before inside)]
    simp [CString.take, before]
  · exact copyString_behind _ _ (by rwa [length])

/-- The string a `char *` to this array denotes. -/
def string? (array : CharArray capacity) : Option (CString capacity) :=
  match read : readString array.bytes with
  | none => none
  | some chars =>
      some ⟨chars, (readString_wellFormed read).1,
        array.length_eq ▸ (readString_wellFormed read).2⟩

/-- A copied string is read back whatever the array held before. -/
@[simp] theorem string?_copyString (target : CharArray capacity) (source : CString capacity) :
    (target.copyString source).string? = some source := by
  have read : readString (target.copyString source).bytes = some source.chars :=
    readString_terminated source.noNul _
  unfold string?
  split
  · rename_i missing
    rw [read] at missing
    cases missing
  · rename_i chars found
    rw [read, Option.some.injEq] at found
    subst found
    rfl

theorem string?_eq_some_iff {array : CharArray capacity} {value : CString capacity} :
    array.string? = some value ↔ readString array.bytes = some value.chars := by
  unfold string?
  constructor
  · intro found
    split at found
    · cases found
    · cases found
      assumption
  · intro read
    split
    · rename_i missing
      rw [read] at missing
      cases missing
    · rename_i chars found
      rw [read, Option.some.injEq] at found
      subst found
      rfl

/-- Every written byte is the same in the other array, which may have more of them. -/
def Filled (array other : CharArray capacity) : Prop := List.Forall₂ Keeps array.bytes other.bytes

namespace Filled

variable {array other : CharArray capacity}

theorem unwritten (other : CharArray capacity) : Filled (unwritten capacity) other := by
  have blank : ∀ bytes : List (Option UInt8),
      List.Forall₂ Keeps (List.replicate bytes.length none) bytes := by
    intro bytes
    induction bytes with
    | nil => exact .nil
    | cons head rest inductionHypothesis =>
        exact .cons (fun _ found => by cases found) inductionHypothesis
  have all := blank other.bytes
  rwa [other.length_eq] at all

theorem copyString (filled : Filled array other) (source : CString capacity) :
    Filled (array.copyString source) (other.copyString source) := by
  have dropped := List.forall₂_drop (source.chars.length + 1) filled
  have terminated := List.Forall₂.cons (Keeps.refl (some 0)) dropped
  exact List.rel_append (List.forall₂_same.mpr fun byte _ => Keeps.refl byte) terminated

/-- A string is read from the written bytes alone. -/
theorem string? (filled : Filled array other) {value : CString capacity}
    (read : array.string? = some value) : other.string? = some value := by
  rw [string?_eq_some_iff] at read ⊢
  exact readString_keeps filled read

end Filled

end CharArray

end StoredsBench.Lib
