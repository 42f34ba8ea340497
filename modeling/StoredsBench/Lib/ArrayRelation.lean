/-
Module: StoredsBench.Lib.ArrayRelation
Layer: Lib
Purpose: Two arrays whose written slots correspond.  The second may be longer and may have further
  slots written, so it also stands for the first on memory that was not blank.  Every loop that
  succeeds on the first array succeeds on the second with corresponding results.
Trusted boundary: none
Main exports: CArray.Related and one lemma for each operation of CArray
-/
import StoredsBench.Lib.CArray

namespace StoredsBench.Lib.CArray

variable {α β : Type} {capacity size : Nat}

/-- Every written slot of the first array has a related counterpart in the second. -/
structure Related (relation : α → β → Prop) (array : CArray α capacity) (counterpart : CArray β size) :
    Prop where
  fits : capacity ≤ size
  written : ∀ {index : Nat} {value : α}, array.at? index = some value →
    ∃ other, counterpart.at? index = some other ∧ relation value other

theorem at?_of_get {array : CArray α capacity} {index : Nat} {value : α}
    (read : array.get index = .ok value) : array.at? index = some value := by
  unfold get at read
  split at read
  · cases found : array.at? index with
    | none => simp [found] at read
    | some stored =>
        simp only [found, Except.ok.injEq] at read
        rw [read]
  · cases read

theorem eq_put_of_set {array written : CArray α capacity} {index : Nat} {value : α}
    (wrote : array.set index value = .ok written) :
    index < capacity ∧ written = array.put index value := by
  unfold set at wrote
  split at wrote
  · exact ⟨‹_›, by cases wrote; rfl⟩
  · cases wrote

namespace Related

variable {relation : α → β → Prop} {array changed : CArray α capacity} {counterpart : CArray β size}

theorem unwritten (fits : capacity ≤ size) :
    Related relation (CArray.unwritten α capacity) counterpart where
  fits := fits
  written := fun found => by simp at found

theorem mono {weaker : α → β → Prop} (related : Related relation array counterpart)
    (weaken : ∀ {value other}, relation value other → weaker value other) :
    Related weaker array counterpart where
  fits := related.fits
  written := fun found => by
    obtain ⟨other, there, holds⟩ := related.written found
    exact ⟨other, there, weaken holds⟩

theorem get (related : Related relation array counterpart) {index : Nat} {value : α}
    (read : array.get index = .ok value) :
    ∃ other, counterpart.get index = .ok other ∧ relation value other := by
  obtain ⟨other, there, holds⟩ := related.written (at?_of_get read)
  exact ⟨other, get_ok there, holds⟩

theorem put (related : Related relation array counterpart) {index : Nat} (inside : index < capacity)
    {value : α} {other : β} (holds : relation value other) :
    Related relation (array.put index value) (counterpart.put index other) where
  fits := related.fits
  written := by
    intro position stored found
    have insideThere : index < size := Nat.lt_of_lt_of_le inside related.fits
    rw [at?_put array inside] at found
    rw [at?_put counterpart insideThere]
    by_cases same : position = index
    · rw [if_pos same, Option.some.injEq] at found
      rw [if_pos same]
      exact ⟨other, rfl, found ▸ holds⟩
    · rw [if_neg same] at found
      rw [if_neg same]
      exact related.written found

theorem set (related : Related relation array counterpart) {index : Nat} {value : α} {other : β}
    (holds : relation value other) (wrote : array.set index value = .ok changed) :
    ∃ written, counterpart.set index other = .ok written ∧ Related relation changed written := by
  obtain ⟨inside, rfl⟩ := eq_put_of_set wrote
  exact ⟨_, set_ok (Nat.lt_of_lt_of_le inside related.fits) _ _, related.put inside holds⟩

/-- Rewriting a slot so that its counterpart still fits. -/
theorem rewrite (related : Related relation array counterpart) {index : Nat} {value replaced : α}
    (read : array.get index = .ok value) (wrote : array.set index replaced = .ok changed)
    (fits : ∀ other, relation value other → relation replaced other) :
    Related relation changed counterpart where
  fits := related.fits
  written := by
    intro position stored found
    obtain ⟨inside, rfl⟩ := eq_put_of_set wrote
    rw [at?_put array inside] at found
    by_cases same : position = index
    · rw [if_pos same, Option.some.injEq] at found
      obtain ⟨other, there, holds⟩ := related.written (at?_of_get read)
      refine ⟨other, ?_, found ▸ fits other holds⟩
      rw [same, there]
    · rw [if_neg same] at found
      exact related.written found

/-- A slot the first array never shows may hold anything in the second. -/
theorem put_right (related : Related relation array counterpart) {index : Nat}
    (blank : array.at? index = none) (other : β) :
    Related relation array (counterpart.put index other) where
  fits := related.fits
  written := by
    intro position stored found
    have inside : position < size := Nat.lt_of_lt_of_le (lt_of_at? found) related.fits
    have different : position ≠ index := by
      intro same
      rw [same, blank] at found
      cases found
    by_cases within : index < size
    · rw [at?_put counterpart within, if_neg different]
      exact related.written found
    · have unchanged : (counterpart.put index other).at? position = counterpart.at? position := by
        simp [at?, CArray.put, List.getElem?_set_ne (Ne.symm different)]
      rw [unchanged]
      exact related.written found

/-- What one array shows, the other shows as well. -/
theorem showsPrefix {γ : Type} {view : α → Option γ} {viewThere : β → Option γ} {items : List γ}
    (related : Related relation array counterpart) (shown : Prefix view array items)
    (agree : ∀ value other item, relation value other → view value = some item →
      viewThere other = some item) : Prefix viewThere counterpart items := by
  intro index item found
  obtain ⟨value, written, viewed⟩ := shown index item found
  obtain ⟨other, there, holds⟩ := related.written written
  exact ⟨other, there, agree _ _ _ holds viewed⟩

section Loops

variable {holds : α → Bool} {test : β → Bool}

theorem scanUpFrom (related : Related relation array counterpart)
    (agree : ∀ value other, relation value other → holds value = test other) :
    ∀ {remaining index found : Nat}, array.scanUpFrom holds remaining index = .ok found →
      counterpart.scanUpFrom test remaining index = .ok found
  | 0, _, _, ran => ran
  | remaining + 1, index, found, ran => by
      rw [CArray.scanUpFrom] at ran ⊢
      cases read : array.get index with
      | error fault => simp [read, bind, Except.bind] at ran
      | ok value =>
          obtain ⟨other, readThere, same⟩ := related.get read
          simp only [read, readThere, bind, Except.bind, agree value other same] at ran ⊢
          cases continues : test other with
          | false => simpa [continues] using ran
          | true =>
              simp only [continues, if_true] at ran ⊢
              exact scanUpFrom related agree ran

theorem scanUp (related : Related relation array counterpart)
    (agree : ∀ value other, relation value other → holds value = test other) {stop found : Nat}
    (ran : array.scanUp holds stop = .ok found) : counterpart.scanUp test stop = .ok found :=
  scanUpFrom related agree ran

theorem scanDown (related : Related relation array counterpart)
    (agree : ∀ value other, relation value other → holds value = test other) :
    ∀ {stop found : Nat}, array.scanDown holds stop = .ok found →
      counterpart.scanDown test stop = .ok found
  | 0, _, ran => ran
  | stop + 1, found, ran => by
      rw [CArray.scanDown] at ran ⊢
      cases read : array.get stop with
      | error fault => simp [read, bind, Except.bind] at ran
      | ok value =>
          obtain ⟨other, readThere, same⟩ := related.get read
          simp only [read, readThere, bind, Except.bind, agree value other same] at ran ⊢
          cases continues : test other with
          | false => simpa [continues] using ran
          | true =>
              simp only [continues, if_true] at ran ⊢
              exact scanDown related agree ran

theorem shiftUp (first : Nat) : ∀ {count : Nat} {array changed : CArray α capacity}
    {counterpart : CArray β size}, Related relation array counterpart →
    CArray.shiftUp first count array = .ok changed →
    ∃ shifted, CArray.shiftUp first count counterpart = .ok shifted ∧
      Related relation changed shifted
  | 0, array, changed, counterpart, related, ran => by
      cases ran
      exact ⟨counterpart, rfl, related⟩
  | count + 1, array, changed, counterpart, related, ran => by
      rw [CArray.shiftUp] at ran
      cases read : array.get (first + count) with
      | error fault => simp [read, bind, Except.bind] at ran
      | ok value =>
          obtain ⟨other, readThere, same⟩ := related.get read
          cases wrote : array.set (first + count + 1) value with
          | error fault => simp [read, wrote, bind, Except.bind] at ran
          | ok between =>
              obtain ⟨written, wroteThere, stillRelated⟩ := related.set same wrote
              simp only [read, wrote, bind, Except.bind] at ran
              obtain ⟨shifted, shiftRan, shiftRelated⟩ := shiftUp first stillRelated ran
              refine ⟨shifted, ?_, shiftRelated⟩
              rw [CArray.shiftUp]
              simp only [readThere, wroteThere, bind, Except.bind]
              exact shiftRan

theorem shiftUpWhile (agree : ∀ value other, relation value other → holds value = test other) :
    ∀ {stop index : Nat} {array changed : CArray α capacity} {counterpart : CArray β size},
    Related relation array counterpart →
    CArray.shiftUpWhile holds stop array = .ok (index, changed) →
    ∃ shifted, CArray.shiftUpWhile test stop counterpart = .ok (index, shifted) ∧
      Related relation changed shifted
  | 0, index, array, changed, counterpart, related, ran => by
      cases ran
      exact ⟨counterpart, rfl, related⟩
  | stop + 1, index, array, changed, counterpart, related, ran => by
      rw [CArray.shiftUpWhile] at ran
      cases read : array.get stop with
      | error fault => simp [read, bind, Except.bind] at ran
      | ok value =>
          obtain ⟨other, readThere, same⟩ := related.get read
          simp only [read, bind, Except.bind, agree value other same] at ran
          rw [CArray.shiftUpWhile]
          simp only [readThere, bind, Except.bind]
          cases continues : test other with
          | false =>
              simp only [continues, Bool.false_eq_true, if_false, Except.ok.injEq,
                Prod.mk.injEq] at ran ⊢
              obtain ⟨rfl, rfl⟩ := ran
              exact ⟨counterpart, ⟨rfl, rfl⟩, related⟩
          | true =>
              simp only [continues, if_true] at ran ⊢
              cases wrote : array.set (stop + 1) value with
              | error fault => simp [wrote] at ran
              | ok between =>
                  obtain ⟨written, wroteThere, stillRelated⟩ := related.set same wrote
                  simp only [wrote] at ran
                  simp only [wroteThere]
                  exact shiftUpWhile agree stillRelated ran

/-- One array of pairs stands for two arrays that are moved together. -/
theorem shiftBothUpWhile {γ : Type} {room : Nat} {beside : α → γ → Prop}
    (agree : ∀ value other, relation value other → holds value = test other) :
    ∀ {stop index : Nat} {array changed : CArray α capacity} {counterpart : CArray β size}
      {second : CArray γ room},
    Related relation array counterpart → Related beside array second →
    CArray.shiftUpWhile holds stop array = .ok (index, changed) →
    ∃ shifted moved, CArray.shiftBothUpWhile test stop counterpart second =
        .ok (index, shifted, moved) ∧
      Related relation changed shifted ∧ Related beside changed moved
  | 0, index, array, changed, counterpart, second, related, along, ran => by
      cases ran
      exact ⟨counterpart, second, rfl, related, along⟩
  | stop + 1, index, array, changed, counterpart, second, related, along, ran => by
      rw [CArray.shiftUpWhile] at ran
      obtain ⟨value, read, ran⟩ := except_bind_inv ran
      obtain ⟨other, readThere, same⟩ := related.get read
      obtain ⟨third, readBeside, sameBeside⟩ := along.get read
      rw [CArray.shiftBothUpWhile, except_bind_ok readThere]
      rw [agree value other same] at ran
      cases continues : test other with
      | false =>
          simp only [continues, Bool.false_eq_true, if_false, Except.ok.injEq, Prod.mk.injEq] at ran
          obtain ⟨rfl, rfl⟩ := ran
          exact ⟨counterpart, second, rfl, related, along⟩
      | true =>
          simp only [continues, if_true] at ran
          obtain ⟨between, wrote, ran⟩ := except_bind_inv ran
          obtain ⟨written, wroteThere, stillRelated⟩ := related.set same wrote
          obtain ⟨writtenBeside, wroteBeside, stillAlong⟩ := along.set sameBeside wrote
          obtain ⟨shifted, moved, shiftRan, holdsShifted⟩ :=
            shiftBothUpWhile agree stillRelated stillAlong ran
          refine ⟨shifted, moved, ?_, holdsShifted⟩
          rw [if_pos rfl, except_bind_ok wroteThere, except_bind_ok readBeside,
            except_bind_ok wroteBeside, shiftRan]

theorem copyFrom (sources : Related relation array counterpart) (offset : Nat) :
    ∀ {count : Nat} {target changed : CArray α capacity} {targetThere : CArray β size},
    Related relation target targetThere →
    CArray.copyFrom array offset count target = .ok changed →
    ∃ copied, CArray.copyFrom counterpart offset count targetThere = .ok copied ∧
      Related relation changed copied
  | 0, target, changed, targetThere, related, ran => by
      cases ran
      exact ⟨targetThere, rfl, related⟩
  | count + 1, target, changed, targetThere, related, ran => by
      rw [CArray.copyFrom] at ran
      cases before : CArray.copyFrom array offset count target with
      | error fault => simp [before, bind, Except.bind] at ran
      | ok between =>
          obtain ⟨copied, copiedThere, stillRelated⟩ := copyFrom sources offset related before
          cases read : array.get (count + offset) with
          | error fault => simp [before, read, bind, Except.bind] at ran
          | ok value =>
              obtain ⟨other, readThere, same⟩ := sources.get read
              simp only [before, read, bind, Except.bind] at ran
              obtain ⟨written, wroteThere, finished⟩ := stillRelated.set same ran
              refine ⟨written, ?_, finished⟩
              rw [CArray.copyFrom]
              simp only [copiedThere, readThere, bind, Except.bind]
              exact wroteThere

end Loops

end Related

end StoredsBench.Lib.CArray
