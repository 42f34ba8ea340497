/-
Module: StoredsBench.Interface
Layer: Interface
Purpose: The `StoredsBase` interface the benchmark drives every backend through, and what it means
  for a backend to be a finite map.  A history of calls determines, for every key, the value of its
  last insert; `answers` is the list of values a correct backend returns for the reads of a
  history.  `Represents` relates backend states to ascending association lists step by step, and
  `Represents.run_ok` lifts it to whole histories.
Trusted boundary: human-reviewed spec
Main exports: Key, Value, Call, lastInsert, answers, contentsOf, Backend, Represents
-/
import StoredsBench.Lib.CString
import StoredsBench.Lib.Memory
import StoredsBench.Lib.SortedAssoc
import Mathlib.Data.List.Induction

namespace StoredsBench

open Lib Lib.SortedAssoc

/-- The numeric order the code compares `uint64_t` keys by. -/
instance keyLinearOrder : LinearOrder UInt64 where
  le_refl := UInt64.le_refl
  le_trans := fun _ _ _ => UInt64.le_trans
  le_antisymm := fun _ _ => UInt64.le_antisymm
  le_total := UInt64.le_total
  lt_iff_le_not_ge := fun a b => by
    simp only [UInt64.lt_iff_toNat_lt, UInt64.le_iff_toNat_le]
    omega
  toDecidableLE := inferInstance
  toDecidableEq := inferInstance
  toDecidableLT := inferInstance
  min_def := fun _ _ => rfl
  max_def := fun _ _ => rfl
  compare_eq_compareOfLessAndEq := fun _ _ => rfl

/-- `uint64_t` keys. -/
abbrev Key := UInt64

theorem key_succ_ne (key : Key) : key + 1 ≠ key := by
  intro same
  rw [UInt64.add_comm] at same
  have one : 1 + key - key = 1 := UInt64.add_sub_cancel 1 key
  rw [same, UInt64.sub_self] at one
  exact absurd one (by decide)

/-- `DEFAULT_VALUE_LEN`, the size of every value slot. -/
def DEFAULT_VALUE_LEN : Nat := 128

/-- The values a slot can hold: strings of fewer than 128 bytes. -/
abbrev Value := CString DEFAULT_VALUE_LEN

/-- The `char value[DEFAULT_VALUE_LEN]` member of the nodes. -/
abbrev ValueSlot := CharArray DEFAULT_VALUE_LEN

/-- The calls of a workload that concern single keys. -/
inductive Call where
  | insert (key : Key) (value : Value)
  | read (key : Key)
deriving DecidableEq

/-- The value of the last insert for `key` in a history, if there is one. -/
def lastInsert (key : Key) (history : List Call) : Option Value :=
  history.foldl
    (fun last call =>
      match call with
      | .insert other value => if other = key then some value else last
      | .read _ => last)
    none

/-- What the reads among `calls` must return after the history `past`. -/
def answersAfter (past : List Call) : List Call → List (Option Value)
  | [] => []
  | .insert key value :: rest => answersAfter (past ++ [.insert key value]) rest
  | .read key :: rest => lastInsert key past :: answersAfter (past ++ [.read key]) rest

/-- What the reads of a history must return. -/
def answers (history : List Call) : List (Option Value) := answersAfter [] history

/-- The stored entries after a history, in ascending key order. -/
def contentsOf (history : List Call) : List (Key × Value) :=
  history.foldl
    (fun entries call =>
      match call with
      | .insert key value => upsert key value entries
      | .read _ => entries)
    []

@[simp] theorem lastInsert_nil (key : Key) : lastInsert key [] = none := rfl

@[simp] theorem lastInsert_insert (key other : Key) (value : Value) (past : List Call) :
    lastInsert key (past ++ [.insert other value]) =
      if other = key then some value else lastInsert key past := by
  simp [lastInsert]

@[simp] theorem lastInsert_read (key other : Key) (past : List Call) :
    lastInsert key (past ++ [.read other]) = lastInsert key past := by
  simp [lastInsert]

@[simp] theorem contentsOf_insert (key : Key) (value : Value) (past : List Call) :
    contentsOf (past ++ [.insert key value]) = upsert key value (contentsOf past) := by
  simp [contentsOf]

@[simp] theorem contentsOf_read (key : Key) (past : List Call) :
    contentsOf (past ++ [.read key]) = contentsOf past := by
  simp [contentsOf]

/-- The stored entries hold the last inserted value of every key. -/
theorem lookup_contentsOf (key : Key) (history : List Call) :
    (contentsOf history).lookup key = lastInsert key history := by
  induction history using List.reverseRecOn with
  | nil => rfl
  | append_singleton past call inductionHypothesis =>
      cases call with
      | read other => simpa using inductionHypothesis
      | insert other value =>
          rw [contentsOf_insert, lastInsert_insert, lookup_upsert, inductionHypothesis]
          simp only [eq_comm]

theorem sorted_contentsOf (history : List Call) : Sorted (contentsOf history) := by
  induction history using List.reverseRecOn with
  | nil => exact sorted_nil
  | append_singleton past call inductionHypothesis =>
      cases call with
      | read other => simpa using inductionHypothesis
      | insert other value =>
          rw [contentsOf_insert]
          exact sorted_upsert inductionHypothesis

/-- A key with a last insert was inserted. -/
theorem exists_insert {key : Key} {history : List Call} (stored : lastInsert key history ≠ none) :
    ∃ value, Call.insert key value ∈ history := by
  induction history using List.reverseRecOn with
  | nil => exact absurd rfl stored
  | append_singleton past call inductionHypothesis =>
      cases call with
      | read other =>
          rw [lastInsert_read] at stored
          obtain ⟨value, member⟩ := inductionHypothesis stored
          exact ⟨value, List.mem_append_left _ member⟩
      | insert other value =>
          by_cases same : other = key
          · subst same
            exact ⟨value, List.mem_append_right _ List.mem_cons_self⟩
          · rw [lastInsert_insert, if_neg same] at stored
            obtain ⟨value, member⟩ := inductionHypothesis stored
            exact ⟨value, List.mem_append_left _ member⟩

/-! ### Backends -/

/-- The part of the `StoredsBase` interface a finite map is judged by.  `read` yields the string
the returned pointer denotes. -/
structure Backend (σ : Type) where
  insert : Key → Value → σ → Except Fault σ
  read : Key → σ → Except Fault (Option Value)

namespace Backend

variable {σ : Type}

/-- Issue the calls one after another and collect what the reads return. -/
def run (backend : Backend σ) : List Call → σ → Except Fault (List (Option Value) × σ)
  | [], state => .ok ([], state)
  | .insert key value :: rest, state => do
      let state ← backend.insert key value state
      backend.run rest state
  | .read key :: rest, state => do
      let value ← backend.read key state
      let (values, state) ← backend.run rest state
      .ok (value :: values, state)

/-- Insert pairs one after another. -/
def insertAll (backend : Backend σ) (pairs : List (Key × Value)) (state : σ) : Except Fault σ :=
  pairs.foldlM (fun state pair => backend.insert pair.1 pair.2 state) state

/-- The state answers as a map that went through `history`, and an insert for one key leaves what
the other keys read. -/
def MapAfter (backend : Backend σ) (history : List Call) (state : σ) : Prop :=
  (∀ key, backend.read key state = .ok (lastInsert key history)) ∧
    ∀ key value, ∃ next, backend.insert key value state = .ok next ∧
      ∀ other, other ≠ key → backend.read other next = backend.read other state

end Backend

/-- Insert pairs one after another, in the monad of a class. -/
def insertEach {N X : Type} (insert : Key → Value → Prog N X Int) : List (Key × Value) → Prog N X Unit
  | [] => return ()
  | (key, value) :: rest => do
      let _ ← insert key value
      insertEach insert rest

theorem insertEach_append {N X : Type} (insert : Key → Value → Prog N X Int)
    (pairs more : List (Key × Value)) (store : Store N X) :
    insertEach insert (pairs ++ more) store =
      (insertEach insert pairs >>= fun _ => insertEach insert more) store := by
  induction pairs generalizing store with
  | nil => rfl
  | cons pair rest inductionHypothesis =>
      cases ran : insert pair.1 pair.2 store with
      | error fault => simp only [List.cons_append, insertEach, bind, StateT.bind, ran, Except.bind]
      | ok result =>
          have started : ∀ continued, (insertEach insert (pair :: continued)) store =
              insertEach insert continued result.2 := by
            intro continued
            rw [insertEach, bind_ok ran]
          rw [List.cons_append, started, inductionHypothesis]
          simp only [bind, StateT.bind, started]

/-- The entries that are stored after inserting the pairs on top of `entries`. -/
def upsertAll (pairs : List (Key × Value)) (entries : List (Key × Value)) : List (Key × Value) :=
  pairs.foldl (fun entries pair => upsert pair.1 pair.2 entries) entries

/-- States show ascending association lists; an insert is an upsert and a read is a lookup. -/
structure Represents {σ : Type} (backend : Backend σ) (shows : σ → List (Key × Value) → Prop) :
    Prop where
  insert : ∀ {state entries} (key : Key) (value : Value), shows state entries →
    ∃ after, backend.insert key value state = .ok after ∧ shows after (upsert key value entries)
  read : ∀ {state entries} (key : Key), shows state entries →
    backend.read key state = .ok (entries.lookup key)

namespace Represents

variable {σ : Type} {backend : Backend σ} {shows : σ → List (Key × Value) → Prop}

/-- Every history runs without a fault and gets the answers of the abstract map. -/
theorem run_ok (represents : Represents backend shows) : ∀ (calls past : List Call) {state : σ},
    shows state (contentsOf past) →
    ∃ after, backend.run calls state = .ok (answersAfter past calls, after) ∧
      shows after (contentsOf (past ++ calls))
  | [], past, state, shown => ⟨state, rfl, by simpa using shown⟩
  | .insert key value :: rest, past, state, shown => by
      obtain ⟨next, ran, nextShown⟩ := represents.insert key value shown
      rw [← contentsOf_insert] at nextShown
      obtain ⟨after, restRan, afterShown⟩ :=
        represents.run_ok rest (past ++ [.insert key value]) nextShown
      refine ⟨after, ?_, by simpa using afterShown⟩
      simpa only [Backend.run, ran, bind, Except.bind, answersAfter] using restRan
  | .read key :: rest, past, state, shown => by
      have ran := represents.read key shown
      obtain ⟨after, restRan, afterShown⟩ :=
        represents.run_ok rest (past ++ [.read key]) (by rwa [contentsOf_read])
      refine ⟨after, ?_, by simpa using afterShown⟩
      simp only [Backend.run, ran, bind, Except.bind, restRan, answersAfter, lookup_contentsOf]

/-- What a state shows is what it answers, now and after one more insert. -/
theorem mapAfter (represents : Represents backend shows) {state : σ} {history : List Call}
    (shown : shows state (contentsOf history)) : backend.MapAfter history state := by
  refine ⟨fun key => by rw [represents.read key shown, lookup_contentsOf], fun key value => ?_⟩
  obtain ⟨next, ran, nextShown⟩ := represents.insert key value shown
  refine ⟨next, ran, fun other different => ?_⟩
  rw [represents.read other nextShown, represents.read other shown, lookup_upsert_of_ne different]

/-- Histories that begin with an insert, for a backend that shows entries from then on. -/
theorem run_from_first (represents : Represents backend shows) {fresh next : σ} {key : Key}
    {value : Value} (first : backend.insert key value fresh = .ok next)
    (shown : shows next [(key, value)]) (calls : List Call) :
    ∃ after, backend.run (.insert key value :: calls) fresh =
        .ok (answers (.insert key value :: calls), after) ∧
      backend.MapAfter (.insert key value :: calls) after := by
  obtain ⟨after, ran, afterShown⟩ := represents.run_ok calls [.insert key value] shown
  refine ⟨after, ?_, represents.mapAfter afterShown⟩
  simpa only [Backend.run, first, bind, Except.bind, answers, answersAfter, List.nil_append]
    using ran

theorem insertAll_ok (represents : Represents backend shows) :
    ∀ (pairs : List (Key × Value)) {state : σ} {entries : List (Key × Value)},
      shows state entries → ∃ after, backend.insertAll pairs state = .ok after ∧
        shows after (upsertAll pairs entries)
  | [], state, entries, shown => ⟨state, rfl, shown⟩
  | pair :: pairs, state, entries, shown => by
      obtain ⟨next, ran, nextShown⟩ := represents.insert pair.1 pair.2 shown
      obtain ⟨after, restRan, afterShown⟩ := represents.insertAll_ok pairs nextShown
      refine ⟨after, ?_, afterShown⟩
      rw [Backend.insertAll, List.foldlM_cons, ran]
      exact restRan

/-- A non-empty sequence of inserts, run from a fresh state. -/
theorem insertAll_from_first (represents : Represents backend shows) {fresh next : σ}
    {pair : Key × Value} (first : backend.insert pair.1 pair.2 fresh = .ok next)
    (shown : shows next [pair]) (pairs : List (Key × Value)) :
    ∃ after, backend.insertAll (pair :: pairs) fresh = .ok after ∧
      shows after (upsertAll (pair :: pairs) []) := by
  obtain ⟨after, ran, afterShown⟩ := represents.insertAll_ok pairs shown
  refine ⟨after, ?_, afterShown⟩
  rw [Backend.insertAll, List.foldlM_cons, first]
  exact ran

end Represents

/-! ### Backends with other answers -/

/-- What reads return when `answer` says what a key reads after a history. -/
def answersBy (answer : Key → List Call → Option Value) (past : List Call) :
    List Call → List (Option Value)
  | [] => []
  | .insert key value :: rest => answersBy answer (past ++ [.insert key value]) rest
  | .read key :: rest => answer key past :: answersBy answer (past ++ [.read key]) rest

/-- The reads ask only for keys that were inserted before. -/
def AsksStored (past : List Call) : List Call → Prop
  | [] => True
  | .insert key value :: rest => AsksStored (past ++ [.insert key value]) rest
  | .read key :: rest => lastInsert key past ≠ none ∧ AsksStored (past ++ [.read key]) rest

theorem answersBy_lastInsert (past calls : List Call) :
    answersBy lastInsert past calls = answersAfter past calls := by
  induction calls generalizing past with
  | nil => rfl
  | cons call rest inductionHypothesis =>
      cases call with
      | insert key value => exact inductionHypothesis _
      | read key => exact congrArg _ (inductionHypothesis _)

/-- Answers that agree on every key that was inserted. -/
theorem answersBy_congr {answer other : Key → List Call → Option Value} {past calls : List Call}
    (asks : AsksStored past calls)
    (agree : ∀ (key : Key) (before after : List Call), past ++ calls = before ++ after →
      lastInsert key before ≠ none → answer key before = other key before) :
    answersBy answer past calls = answersBy other past calls := by
  induction calls generalizing past with
  | nil => rfl
  | cons call rest inductionHypothesis =>
      cases call with
      | insert key value =>
          apply inductionHypothesis asks
          intro key before after split
          exact agree key before after (by rw [← split, List.append_assoc]; rfl)
      | read key =>
          obtain ⟨stored, restAsks⟩ := asks
          rw [answersBy, answersBy, agree key past (.read key :: rest) rfl stored]
          congr 1
          apply inductionHypothesis restAsks
          intro key before after split
          exact agree key before after (by rw [← split, List.append_assoc]; rfl)

/-- A backend whose states show what a key reads, as long as reads ask for stored keys. -/
theorem run_answersBy {σ : Type} {backend : Backend σ} {shows : σ → List Call → Prop}
    {answer : Key → List Call → Option Value}
    (insertOk : ∀ {state past} key value, shows state past →
      ∃ after, backend.insert key value state = .ok after ∧
        shows after (past ++ [.insert key value]))
    (readOk : ∀ {state past} key, shows state past → lastInsert key past ≠ none →
      backend.read key state = .ok (answer key past))
    (keeps : ∀ {state past} key, shows state past → shows state (past ++ [.read key]))
    {calls past : List Call} {state : σ} (asks : AsksStored past calls) (shown : shows state past) :
    ∃ after, backend.run calls state = .ok (answersBy answer past calls, after) ∧
      shows after (past ++ calls) := by
  induction calls generalizing past state with
  | nil => exact ⟨state, rfl, by simpa using shown⟩
  | cons call rest inductionHypothesis =>
      cases call with
      | insert key value =>
          obtain ⟨next, ran, nextShown⟩ := insertOk key value shown
          obtain ⟨after, restRan, afterShown⟩ := inductionHypothesis asks nextShown
          refine ⟨after, ?_, by simpa using afterShown⟩
          simpa only [Backend.run, ran, bind, Except.bind, answersBy] using restRan
      | read key =>
          obtain ⟨stored, restAsks⟩ := asks
          obtain ⟨after, restRan, afterShown⟩ := inductionHypothesis restAsks (keeps key shown)
          refine ⟨after, ?_, by simpa using afterShown⟩
          simp only [Backend.run, readOk key shown stored, bind, Except.bind, restRan, answersBy]

/-! ### Two backends side by side -/

/-- What a call delivers. -/
inductive Answer where
  | inserted
  | value (found : Option Value)
  | pairs (found : List (Key × Value))
deriving DecidableEq

/-- Issue calls one after another and collect what they deliver. -/
def serve {C σ : Type} (step : C → σ → Except Fault (Answer × σ)) :
    List C → σ → Except Fault (List Answer × σ)
  | [], state => .ok ([], state)
  | call :: rest, state => do
      let (answer, state) ← step call state
      let (answers, state) ← serve step rest state
      .ok (answer :: answers, state)

/-- One call of a workload without range scans. -/
def Backend.step {σ : Type} (backend : Backend σ) : Call → σ → Except Fault (Answer × σ)
  | .insert key value, state => do
      let state ← backend.insert key value state
      .ok (.inserted, state)
  | .read key, state => do
      let found ← backend.read key state
      .ok (.value found, state)

theorem Backend.step_insert {σ : Type} {backend : Backend σ} {key : Key} {value : Value}
    {state next : σ} (ran : backend.insert key value state = .ok next) :
    backend.step (.insert key value) state = .ok (.inserted, next) := by
  rw [Backend.step, except_bind_ok ran]

theorem Backend.step_read {σ : Type} {backend : Backend σ} {key : Key} {state : σ}
    {found : Option Value} (ran : backend.read key state = .ok found) :
    backend.step (.read key) state = .ok (.value found, state) := by
  rw [Backend.step, except_bind_ok ran]

/-- The key a call inserts. -/
def Call.inserted? : Call → Option Key
  | .insert key _ => some key
  | .read _ => none

/-- Calls that may also ask for a range. -/
inductive RangeCall where
  | insert (key : Key) (value : Value)
  | read (key : Key)
  | scan (key : Key) (len : Int)
deriving DecidableEq

/-- The key a call inserts. -/
def RangeCall.inserted? : RangeCall → Option Key
  | .insert key _ => some key
  | .read _ => none
  | .scan _ _ => none

/-- The inserted keys, each once, in the order of their first insertion. -/
def insertionOrder {C : Type} (inserted? : C → Option Key) (calls : List C) : List Key :=
  (calls.filterMap inserted?).eraseDups

theorem insertionOrder_idle {C : Type} {inserted? : C → Option Key} (past : List C) {call : C}
    (idle : inserted? call = none) :
    insertionOrder inserted? (past ++ [call]) = insertionOrder inserted? past := by
  simp [insertionOrder, idle]

theorem insertionOrder_insert {C : Type} {inserted? : C → Option Key} (past : List C) {call : C}
    {key : Key} (inserts : inserted? call = some key) :
    insertionOrder inserted? (past ++ [call]) =
      if key ∈ insertionOrder inserted? past then insertionOrder inserted? past
      else insertionOrder inserted? past ++ [key] := by
  simp only [insertionOrder, List.filterMap_append, List.eraseDups_append, List.mem_eraseDups]
  simp only [List.filterMap_cons, inserts, List.filterMap_nil]
  have single : [key].removeAll (past.filterMap inserted?) =
      if key ∈ past.filterMap inserted? then [] else [key] := by
    rw [List.removeAll, List.filter_singleton]
    by_cases member : key ∈ past.filterMap inserted?
    · rw [if_pos member, List.elem_eq_true_of_mem member]
      rfl
    · rw [if_neg member, List.elem_eq_contains, List.contains_eq_mem, decide_eq_false member]
      rfl
  rw [single]
  split
  · exact List.append_nil _
  · rfl

/-- A backend with range scans. -/
structure RangeBackend (σ : Type) extends Backend σ where
  scan : Key → Int → σ → Except Fault (List (Key × Value))

def RangeBackend.step {σ : Type} (backend : RangeBackend σ) :
    RangeCall → σ → Except Fault (Answer × σ)
  | .insert key value, state => backend.toBackend.step (.insert key value) state
  | .read key, state => backend.toBackend.step (.read key) state
  | .scan key len, state => do
      let found ← backend.scan key len state
      .ok (.pairs found, state)

theorem RangeBackend.step_scan {σ : Type} {backend : RangeBackend σ} {key : Key} {len : Int}
    {state : σ} {found : List (Key × Value)} (ran : backend.scan key len state = .ok found) :
    backend.step (.scan key len) state = .ok (.pairs found, state) := by
  rw [RangeBackend.step, except_bind_ok ran]

section Matching

variable {C σ τ : Type} {step : C → σ → Except Fault (Answer × σ)}
  {other : C → τ → Except Fault (Answer × τ)} {related : List C → σ → τ → Prop}

theorem serve_cons {call : C} {calls : List C} {answer : Answer} {answers : List Answer}
    {state next after : σ} (ran : step call state = .ok (answer, next))
    (restRan : serve step calls next = .ok (answers, after)) :
    serve step (call :: calls) state = .ok (answer :: answers, after) := by
  rw [serve, except_bind_ok ran]
  dsimp only
  rw [except_bind_ok restRan]

/-- Every call is served in states that are related after a history, delivers the same, and leads to
related states. -/
def Matches (step : C → σ → Except Fault (Answer × σ)) (other : C → τ → Except Fault (Answer × τ))
    (related : List C → σ → τ → Prop) : Prop :=
  ∀ (past : List C) (call : C) {state : σ} {counterpart : τ}, related past state counterpart →
    ∃ answer next nextThere, step call state = .ok (answer, next) ∧
      other call counterpart = .ok (answer, nextThere) ∧ related (past ++ [call]) next nextThere

/-- Whole workloads from related states. -/
theorem Matches.serve (matching : Matches step other related) : ∀ (calls past : List C) {state : σ}
    {counterpart : τ}, related past state counterpart →
    ∃ answers after afterThere, StoredsBench.serve step calls state = .ok (answers, after) ∧
      StoredsBench.serve other calls counterpart = .ok (answers, afterThere) ∧
      related (past ++ calls) after afterThere
  | [], past, state, counterpart, start => by
      refine ⟨[], state, counterpart, rfl, rfl, ?_⟩
      rwa [List.append_nil]
  | call :: rest, past, state, counterpart, start => by
      obtain ⟨answer, next, nextThere, ran, ranThere, between⟩ := matching past call start
      obtain ⟨answers, after, afterThere, restRan, restRanThere, final⟩ :=
        matching.serve rest (past ++ [call]) between
      rw [List.append_assoc, List.singleton_append] at final
      exact ⟨answer :: answers, after, afterThere, serve_cons ran restRan,
        serve_cons ranThere restRanThere, final⟩

/-- Workloads whose first call establishes the relation. -/
theorem Matches.serve_from_first (matching : Matches step other related) {first : C} {fresh : σ}
    {freshThere : τ} {answer : Answer} {next : σ} {nextThere : τ}
    (ran : step first fresh = .ok (answer, next))
    (ranThere : other first freshThere = .ok (answer, nextThere))
    (between : related [first] next nextThere) (calls : List C) :
    ∃ answers after afterThere,
      StoredsBench.serve step (first :: calls) fresh = .ok (answers, after) ∧
      StoredsBench.serve other (first :: calls) freshThere = .ok (answers, afterThere) ∧
      related (first :: calls) after afterThere := by
  obtain ⟨answers, after, afterThere, restRan, restRanThere, final⟩ :=
    matching.serve calls [first] between
  exact ⟨answer :: answers, after, afterThere, serve_cons ran restRan,
    serve_cons ranThere restRanThere, final⟩

end Matching

theorem contentsOf_inserts (pairs : List (Key × Value)) :
    contentsOf (pairs.map fun pair => .insert pair.1 pair.2) = upsertAll pairs [] := by
  rw [contentsOf, List.foldl_map]
  rfl

theorem lookup_upsertAll (key : Key) (pairs : List (Key × Value)) :
    (upsertAll pairs []).lookup key =
      lastInsert key (pairs.map fun pair => .insert pair.1 pair.2) := by
  rw [← contentsOf_inserts, lookup_contentsOf]

theorem sorted_upsertAll (pairs : List (Key × Value)) : Sorted (upsertAll pairs []) := by
  rw [← contentsOf_inserts]
  exact sorted_contentsOf _

end StoredsBench
