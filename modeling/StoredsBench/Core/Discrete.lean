/-
Module: StoredsBench.Core.Discrete
Layer: Model and refinement
Purpose: `DiscreteGenerator` of `core/discrete_generator.h` in exact rational arithmetic, and the choice
  of operations of `core/core_workload.h` that it is for.  What `RandomDouble` returns is an argument.
Trusted boundary: human-reviewed spec for the definitions
Main exports: DiscreteGenerator, DiscreteGenerator.addValue, DiscreteGenerator.next, chooseFrom_iff,
  next_chooses_by_weight, Operation, Proportions, initOpChooser, nextOperation_returns_iff
-/
import StoredsBench.Lib.Slices
import Mathlib.Algebra.Order.Field.Rat
import Mathlib.Algebra.BigOperators.GroupWithZero.Action
import Mathlib.Tactic

namespace StoredsBench.Core

open StoredsBench.Lib

variable {Value : Type}

/-- `DiscreteGenerator`.  `last` is `none` as long as no value has been added. -/
structure DiscreteGenerator (Value : Type) where
  values : List (Value × ℚ)
  sum : ℚ
  last : Option Value

namespace DiscreteGenerator

/-- The constructor. -/
def construct : DiscreteGenerator Value := { values := [], sum := 0, last := none }

/-- `AddValue`. -/
def addValue (generator : DiscreteGenerator Value) (value : Value) (weight : ℚ) :
    DiscreteGenerator Value where
  values := generator.values ++ [(value, weight)]
  sum := generator.sum + weight
  last := if generator.values.isEmpty then some value else generator.last

/-- The loop of `Next` with the iterator `p` at the given position and the rest of the values ahead:
where it returns, and the value there; `none` where it reaches the end. -/
def chooseFrom (sum : ℚ) : (p : Nat) → List (Value × ℚ) → (chooser : ℚ) → Option (Nat × Value)
  | _, [], _ => none
  | p, (value, weight) :: rest, chooser =>
      if chooser < weight / sum then some (p, value)
      else chooseFrom sum (p + 1) rest (chooser - weight / sum)

/-- The whole loop, with what `RandomDouble` returns. -/
def choose (generator : DiscreteGenerator Value) (chooser : ℚ) : Option (Nat × Value) :=
  chooseFrom generator.sum 0 generator.values chooser

/-- `Next`; `none` where its assertion fails. -/
def next (generator : DiscreteGenerator Value) (chooser : ℚ) :
    Option (Value × DiscreteGenerator Value) :=
  (generator.choose chooser).map fun (_, value) => (value, { generator with last := some value })

/-- Calls of `AddValue` one after another. -/
def addValues (generator : DiscreteGenerator Value) (calls : List (Value × ℚ)) :
    DiscreteGenerator Value :=
  calls.foldl (fun generator (value, weight) => generator.addValue value weight) generator

/-- Calls of `Next` one after another, each with its draw: the values they return, and the generator
behind them. -/
def run : DiscreteGenerator Value → List ℚ → Option (List Value × DiscreteGenerator Value)
  | generator, [] => some ([], generator)
  | generator, draw :: draws => do
      let (value, generator) ← generator.next draw
      let (values, generator) ← run generator draws
      return (value :: values, generator)

/-! ### Added values -/

theorem addValues_values (calls : List (Value × ℚ)) (generator : DiscreteGenerator Value) :
    (generator.addValues calls).values = generator.values ++ calls := by
  induction calls generalizing generator with
  | nil => exact (List.append_nil _).symm
  | cons call calls inductionHypothesis =>
      calc
        ((generator.addValue call.1 call.2).addValues calls).values =
            (generator.values ++ [call]) ++ calls := inductionHypothesis _
        _ = generator.values ++ call :: calls := List.append_assoc _ _ _

theorem addValues_sum (calls : List (Value × ℚ)) (generator : DiscreteGenerator Value) :
    (generator.addValues calls).sum = generator.sum + (calls.map Prod.snd).sum := by
  induction calls generalizing generator with
  | nil => exact (add_zero _).symm
  | cons call calls inductionHypothesis =>
      calc
        ((generator.addValue call.1 call.2).addValues calls).sum =
            generator.sum + call.2 + (calls.map Prod.snd).sum := inductionHypothesis _
        _ = generator.sum + ((call :: calls).map Prod.snd).sum := by
          rw [List.map_cons, List.sum_cons, add_assoc]

/-- The weights of the calls over their sum. -/
def normalised (calls : List (Value × ℚ)) : List ℚ :=
  calls.map fun call => call.2 / (calls.map Prod.snd).sum

theorem weights_pos {calls : List (Value × ℚ)} (nonempty : calls ≠ []) (positive : ∀ call ∈ calls, 0 < call.2) :
    0 < (calls.map Prod.snd).sum := by
  apply List.sum_pos
  · intro weight member
    obtain ⟨call, added, rfl⟩ := List.mem_map.mp member
    exact positive call added
  · intro none
    exact nonempty (List.map_eq_nil_iff.mp none)

theorem normalised_nonneg {calls : List (Value × ℚ)} (nonempty : calls ≠ [])
    (positive : ∀ call ∈ calls, 0 < call.2) : ∀ width ∈ normalised calls, 0 ≤ width := by
  intro width member
  obtain ⟨call, added, rfl⟩ := List.mem_map.mp member
  exact div_nonneg (positive call added).le (weights_pos nonempty positive).le

theorem normalised_sum {calls : List (Value × ℚ)} (nonempty : calls ≠ [])
    (positive : ∀ call ∈ calls, 0 < call.2) : (normalised calls).sum = 1 := by
  have total := weights_pos nonempty positive
  calc
    (normalised calls).sum = (calls.map Prod.snd).sum / (calls.map Prod.snd).sum := by
      simp only [normalised, div_eq_mul_inv]
      exact List.sum_map_mul_right calls Prod.snd _
    _ = 1 := div_self total.ne'

/-! ### Draws -/

/-- The loop returns where the slice of the draw is. -/
theorem chooseFrom_iff {sum chooser : ℚ} {values : List (Value × ℚ)} {p position : Nat} {value : Value}
    (nonneg : ∀ width ∈ values.map (fun call => call.2 / sum), 0 ≤ width) (above : 0 ≤ chooser) :
    chooseFrom sum p values chooser = some (position, value) ↔
      ∃ number, position = p + number ∧ values[number]?.map Prod.fst = some value ∧
        InSlice (values.map fun call => call.2 / sum) number chooser := by
  induction values generalizing p chooser with
  | nil =>
      constructor
      · intro ended
        exact absurd ended (by simp only [chooseFrom, reduceCtorEq, not_false_eq_true])
      · rintro ⟨number, -, -, slice⟩
        exact absurd slice.bound (Nat.not_lt_zero number)
  | cons call rest inductionHypothesis =>
      obtain ⟨here, weight⟩ := call
      have later : ∀ width ∈ rest.map (fun call => call.2 / sum), 0 ≤ width := fun width member =>
        nonneg width (List.mem_cons_of_mem _ member)
      rw [chooseFrom]
      by_cases small : chooser < weight / sum
      · have slice : InSlice (((here, weight) :: rest).map fun call => call.2 / sum) 0 chooser :=
          inSlice_cons_zero.mpr ⟨above, small⟩
        rw [if_pos small]
        constructor
        · intro returned
          injection returned with same
          injection same with place found
          exact ⟨0, place.symm, congrArg some found, slice⟩
        · rintro ⟨number, rfl, found, other⟩
          -- The draw is in one slice only.
          obtain rfl := InSlice.unique nonneg other slice
          injection found with same
          rw [← same, Nat.add_zero]
      · have ahead : 0 ≤ chooser - weight / sum := sub_nonneg.mpr (not_lt.mp small)
        rw [if_neg small, inductionHypothesis later ahead]
        constructor
        · rintro ⟨number, rfl, found, slice⟩
          exact ⟨number + 1, by omega, found, inSlice_cons_succ.mpr slice⟩
        · rintro ⟨number, rfl, found, slice⟩
          cases number with
          | zero => exact absurd (inSlice_cons_zero.mp slice).2 small
          | succ number => exact ⟨number, by omega, found, inSlice_cons_succ.mp slice⟩

/-- The loop returns an added value. -/
theorem mem_of_chooseFrom {sum chooser : ℚ} {values : List (Value × ℚ)} {p position : Nat} {value : Value}
    (chosen : chooseFrom sum p values chooser = some (position, value)) :
    ∃ weight, (value, weight) ∈ values := by
  induction values generalizing p chooser with
  | nil => cases chosen
  | cons call rest inductionHypothesis =>
      obtain ⟨here, weight⟩ := call
      rw [chooseFrom] at chosen
      by_cases small : chooser < weight / sum
      · rw [if_pos small] at chosen
        cases chosen
        exact ⟨weight, List.mem_cons_self⟩
      · rw [if_neg small] at chosen
        obtain ⟨other, member⟩ := inductionHypothesis chosen
        exact ⟨other, List.mem_cons_of_mem _ member⟩

variable {calls : List (Value × ℚ)} {generator : DiscreteGenerator Value}

/-- The generator has the values of these calls, and has returned some of them or none. -/
structure Carries (generator : DiscreteGenerator Value) (calls : List (Value × ℚ)) : Prop where
  values : generator.values = calls
  sum : generator.sum = (calls.map Prod.snd).sum

theorem carries_addValues (calls : List (Value × ℚ)) : Carries (construct.addValues calls) calls := by
  constructor
  · exact addValues_values calls construct
  · rw [addValues_sum]
    exact zero_add _

/-- `Next` changes neither the values nor their sum. -/
theorem Carries.next (carries : Carries generator calls) {chooser : ℚ} {value : Value}
    {after : DiscreteGenerator Value} (returned : generator.next chooser = some (value, after)) :
    Carries after calls := by
  obtain ⟨_, _, same⟩ := Option.map_eq_some_iff.mp returned
  injection same with _ same
  subst same
  exact ⟨carries.values, carries.sum⟩

theorem choose_iff (carries : Carries generator calls) (nonempty : calls ≠ [])
    (positive : ∀ call ∈ calls, 0 < call.2) {chooser : ℚ} (above : 0 ≤ chooser) {position : Nat}
    {value : Value} :
    generator.choose chooser = some (position, value) ↔
      calls[position]?.map Prod.fst = some value ∧ InSlice (normalised calls) position chooser := by
  rw [choose, carries.values, carries.sum, chooseFrom_iff (normalised_nonneg nonempty positive) above]
  constructor
  · rintro ⟨number, rfl, found, slice⟩
    rw [Nat.zero_add]
    exact ⟨found, slice⟩
  · rintro ⟨found, slice⟩
    exact ⟨position, (Nat.zero_add position).symm, found, slice⟩

/-- The loop returns before its end. -/
theorem choose_returns (carries : Carries generator calls) (nonempty : calls ≠ [])
    (positive : ∀ call ∈ calls, 0 < call.2) {chooser : ℚ} (above : 0 ≤ chooser) (below : chooser < 1) :
    ∃ position, ∃ bound : position < calls.length,
      generator.choose chooser = some (position, calls[position].1) := by
  have under : chooser < (normalised calls).sum := by rwa [normalised_sum nonempty positive]
  obtain ⟨position, slice⟩ := exists_slice above under
  have bound : position < calls.length := by
    have counted := slice.bound
    rwa [normalised, List.length_map] at counted
  refine ⟨position, bound, (choose_iff carries nonempty positive above).mpr ⟨?_, slice⟩⟩
  rw [List.getElem?_eq_getElem bound]
  rfl

theorem next_of_choose {chooser : ℚ} {position : Nat} {value : Value}
    (chosen : generator.choose chooser = some (position, value)) :
    generator.next chooser = some (value, { generator with last := some value }) := by
  rw [DiscreteGenerator.next, chosen]
  rfl

/-- Every call of `Next` in a row returns a value whose slice its draw is in. -/
theorem run_returns (carries : Carries generator calls) (nonempty : calls ≠ [])
    (positive : ∀ call ∈ calls, 0 < call.2) {draws : List ℚ}
    (inside : ∀ draw ∈ draws, 0 ≤ draw ∧ draw < 1) :
    ∃ values after, generator.run draws = some (values, after) ∧ Carries after calls ∧
      List.Forall₂ (fun draw value => ∃ position, calls[position]?.map Prod.fst = some value ∧
        InSlice (normalised calls) position draw) draws values := by
  induction draws generalizing generator with
  | nil => exact ⟨[], generator, rfl, carries, List.Forall₂.nil⟩
  | cons draw draws inductionHypothesis =>
      have range := inside draw List.mem_cons_self
      obtain ⟨position, bound, chosen⟩ :=
        choose_returns carries nonempty positive range.1 range.2
      have returned := next_of_choose chosen
      obtain ⟨values, after, ran, carried, related⟩ :=
        inductionHypothesis (carries.next returned)
          fun draw member => inside draw (List.mem_cons_of_mem _ member)
      refine ⟨calls[position].1 :: values, after, ?_, carried, List.Forall₂.cons ?_ related⟩
      · rw [run, returned]
        simp only [Option.bind_eq_bind, Option.bind_some, ran, Option.pure_def]
      · exact ⟨position, (choose_iff carries nonempty positive range.1).mp chosen⟩

/-- After calls of `AddValue` with positive weights the loop of `Next` returns at the added value in whose
slice the draw is, and these slices are a partition of what `RandomDouble` may return. -/
theorem next_chooses_by_weight (nonempty : calls ≠ []) (positive : ∀ call ∈ calls, 0 < call.2) :
    (∀ draw, 0 ≤ draw → draw < 1 → ∃ position, ∃ bound : position < calls.length,
      (construct.addValues calls).choose draw = some (position, calls[position].1) ∧
        (construct.addValues calls).next draw =
          some (calls[position].1, { construct.addValues calls with last := some calls[position].1 })) ∧
    (∀ draw, 0 ≤ draw → draw < 1 → ∀ position (bound : position < calls.length),
      (construct.addValues calls).choose draw = some (position, calls[position].1) ↔
        offset (normalised calls) position ≤ draw ∧ draw < offset (normalised calls) (position + 1)) ∧
    (∀ draw, (0 ≤ draw ∧ draw < 1) ↔
      ∃ position, position < calls.length ∧ InSlice (normalised calls) position draw) ∧
    (∀ draw first second, InSlice (normalised calls) first draw → InSlice (normalised calls) second draw →
      first = second) := by
  have carries := carries_addValues calls
  have widths := normalised_nonneg nonempty positive
  refine ⟨?_, ?_, ?_, fun draw first second one other => one.unique widths other⟩
  · intro draw above below
    obtain ⟨position, bound, chosen⟩ := choose_returns carries nonempty positive above below
    exact ⟨position, bound, chosen, next_of_choose chosen⟩
  · intro draw above below position bound
    have there : calls[position]?.map Prod.fst = some calls[position].1 := by
      rw [List.getElem?_eq_getElem bound]
      rfl
    rw [choose_iff carries nonempty positive above]
    exact ⟨fun chosen => chosen.2, fun slice => ⟨there, slice⟩⟩
  · intro draw
    rw [← normalised_sum nonempty positive]
    constructor
    · rintro ⟨above, below⟩
      obtain ⟨position, slice⟩ := exists_slice above below
      have bound := slice.bound
      rw [normalised, List.length_map] at bound
      exact ⟨position, bound, slice⟩
    · rintro ⟨position, -, slice⟩
      exact slice.in_range widths

theorem next_chooses_by_weight_two :
    (construct.addValues [('a', (3 : ℚ)), ('b', 1)]).choose (4 / 5) = some (1, 'b') := by
  have positive : ∀ call ∈ [('a', (3 : ℚ)), ('b', 1)], 0 < call.2 := by
    intro call member
    fin_cases member <;> norm_num
  apply ((next_chooses_by_weight (List.cons_ne_nil _ _) positive).2.1 (4 / 5) (by norm_num) (by norm_num) 1
    (by decide)).mpr
  constructor <;> norm_num [normalised, offset]

end DiscreteGenerator

/-! ### The choice of operations -/

/-- `Operation`. -/
inductive Operation where
  | insert
  | read
  | update
  | scan
  | readModifyWrite
deriving DecidableEq

/-- The proportions that `Init` reads, with the defaults of their properties. -/
structure Proportions where
  read : ℚ := 0.95
  update : ℚ := 0.05
  insert : ℚ := 0
  scan : ℚ := 0
  readModifyWrite : ℚ := 0

/-- The proportion of an operation. -/
def Proportions.of (proportions : Proportions) : Operation → ℚ
  | .read => proportions.read
  | .update => proportions.update
  | .insert => proportions.insert
  | .scan => proportions.scan
  | .readModifyWrite => proportions.readModifyWrite

/-- `Init` adds an operation whose proportion is positive. -/
def DiscreteGenerator.addPositive (generator : DiscreteGenerator Value) (value : Value) (weight : ℚ) :
    DiscreteGenerator Value :=
  if weight > 0 then generator.addValue value weight else generator

/-- `op_chooser_` behind `Init`. -/
def initOpChooser (proportions : Proportions) : DiscreteGenerator Operation :=
  ((((DiscreteGenerator.construct
    |>.addPositive .read proportions.read)
    |>.addPositive .update proportions.update)
    |>.addPositive .insert proportions.insert)
    |>.addPositive .scan proportions.scan)
    |>.addPositive .readModifyWrite proportions.readModifyWrite

/-- The operations in the order of `Init`, with their proportions. -/
def Proportions.candidates (proportions : Proportions) : List (Operation × ℚ) :=
  [Operation.read, .update, .insert, .scan, .readModifyWrite].map fun operation =>
    (operation, proportions.of operation)

/-- The calls of `AddValue` that `Init` makes. -/
def Proportions.calls (proportions : Proportions) : List (Operation × ℚ) :=
  proportions.candidates.filter fun call => 0 < call.2

namespace DiscreteGenerator

theorem addPositive_fold (candidates : List (Value × ℚ)) (generator : DiscreteGenerator Value) :
    candidates.foldl (fun generator call => generator.addPositive call.1 call.2) generator =
      generator.addValues (candidates.filter fun call => 0 < call.2) := by
  induction candidates generalizing generator with
  | nil => rfl
  | cons call candidates inductionHypothesis =>
      rw [List.foldl_cons, inductionHypothesis, DiscreteGenerator.addPositive]
      by_cases positive : 0 < call.2
      · rw [List.filter_cons_of_pos (by simpa using positive), if_pos positive]
        rfl
      · rw [List.filter_cons_of_neg (by simpa using positive), if_neg positive]

end DiscreteGenerator

theorem initOpChooser_eq (proportions : Proportions) :
    initOpChooser proportions = DiscreteGenerator.construct.addValues proportions.calls :=
  DiscreteGenerator.addPositive_fold proportions.candidates DiscreteGenerator.construct

theorem mem_calls {proportions : Proportions} {operation : Operation} {weight : ℚ} :
    (operation, weight) ∈ proportions.calls ↔ weight = proportions.of operation ∧ 0 < weight := by
  rw [Proportions.calls, List.mem_filter, Proportions.candidates, List.mem_map]
  constructor
  · rintro ⟨⟨_, -, same⟩, positive⟩
    injection same with first second
    subst first
    exact ⟨second.symm, of_decide_eq_true positive⟩
  · rintro ⟨rfl, positive⟩
    exact ⟨⟨operation, by cases operation <;> decide, rfl⟩, decide_eq_true positive⟩

/-- `NextOperation` returns only operations that the workload has. -/
theorem nextOperation_positive {proportions : Proportions} {draw : ℚ} {operation : Operation}
    {after : DiscreteGenerator Operation}
    (returned : (initOpChooser proportions).next draw = some (operation, after)) :
    0 < proportions.of operation := by
  rw [initOpChooser_eq] at returned
  obtain ⟨⟨position, value⟩, chosen, same⟩ := Option.map_eq_some_iff.mp returned
  injection same with found _
  subst found
  obtain ⟨weight, member⟩ := DiscreteGenerator.mem_of_chooseFrom chosen
  rw [(DiscreteGenerator.carries_addValues proportions.calls).values] at member
  obtain ⟨rfl, positive⟩ := mem_calls.mp member
  exact positive

/-- `NextOperation` reaches the assertion of `Next` exactly where no proportion is positive. -/
theorem nextOperation_returns_iff (proportions : Proportions) {draw : ℚ} (above : 0 ≤ draw)
    (below : draw < 1) :
    ((initOpChooser proportions).next draw).isSome ↔ ∃ operation, 0 < proportions.of operation := by
  constructor
  · intro returned
    obtain ⟨⟨operation, after⟩, same⟩ := Option.isSome_iff_exists.mp returned
    exact ⟨operation, nextOperation_positive same⟩
  · rintro ⟨operation, positive⟩
    have nonempty : proportions.calls ≠ [] := List.ne_nil_of_mem (mem_calls.mpr ⟨rfl, positive⟩)
    have weights : ∀ call ∈ proportions.calls, 0 < call.2 := fun call member => (mem_calls.mp member).2
    obtain ⟨position, bound, chosen⟩ := DiscreteGenerator.choose_returns
      (DiscreteGenerator.carries_addValues proportions.calls) nonempty weights above below
    rw [initOpChooser_eq, DiscreteGenerator.next_of_choose chosen]
    rfl

end StoredsBench.Core
