/-
Module: StoredsBench.Lib.Trimming
Layer: Lib
Purpose: Words with padding around them, and lists cut at the first separator.  What `trim` leaves is
  the only trimmed word that the padding can have been put around.
Trusted boundary: none
Main exports: trim, Trimmed, trim_eq_iff, cut_iff
-/
import Mathlib.Data.List.Basic
import Mathlib.Tactic.Common

namespace StoredsBench.Lib.Trimming

variable {A : Type}

section Padding

variable (space : A → Bool)

/-- Without the padding at the front and at the back. -/
def trim (text : List A) : List A := ((text.dropWhile space).reverse.dropWhile space).reverse

/-- No padding at either end. -/
structure Trimmed (text : List A) : Prop where
  front : ∀ first ∈ text.head?, space first = false
  back : ∀ last ∈ text.getLast?, space last = false

variable {space}

theorem dropWhile_padded {padding : List A} (padded : ∀ letter ∈ padding, space letter)
    (text : List A) : (padding ++ text).dropWhile space = text.dropWhile space :=
  List.dropWhile_append_of_pos padded

theorem dropWhile_front {text : List A} (front : ∀ first ∈ text.head?, space first = false) :
    text.dropWhile space = text := by
  cases text with
  | nil => rfl
  | cons first rest =>
      rw [List.dropWhile_cons_of_neg]
      simpa using front first rfl

theorem head?_dropWhile (text : List A) :
    ∀ first ∈ (text.dropWhile space).head?, space first = false := by
  induction text with
  | nil => simp
  | cons first rest inductionHypothesis =>
      by_cases padding : space first
      · rw [List.dropWhile_cons_of_pos padding]
        exact inductionHypothesis
      · rw [List.dropWhile_cons_of_neg padding]
        simpa using padding

theorem trim_trimmed {text : List A} (trimmed : Trimmed space text) : trim space text = text := by
  have fromBack : text.reverse.dropWhile space = text.reverse := by
    apply dropWhile_front
    rw [List.head?_reverse]
    exact trimmed.back
  rw [trim, dropWhile_front trimmed.front, fromBack, List.reverse_reverse]

theorem trim_front {padding : List A} (padded : ∀ letter ∈ padding, space letter) (text : List A) :
    trim space (padding ++ text) = trim space text := by
  rw [trim, dropWhile_padded padded, trim]

/-- Padding at the back of a text whose front has none. -/
theorem trim_back {padding text : List A} (padded : ∀ letter ∈ padding, space letter)
    (front : ∀ first ∈ text.head?, space first = false) :
    trim space (text ++ padding) = trim space text := by
  cases text with
  | nil =>
      have allDropped := dropWhile_padded padded []
      rw [List.append_nil] at allDropped
      rw [List.nil_append, trim, allDropped, trim]
  | cons first rest =>
      have reversed : ∀ letter ∈ padding.reverse, space letter := by
        intro letter member
        exact padded letter (List.mem_reverse.mp member)
      rw [trim, trim, dropWhile_front front, @dropWhile_front A space (first :: rest ++ padding) front,
        List.reverse_append, dropWhile_padded reversed]

theorem trimmed_trim (text : List A) : Trimmed space (trim space text) := by
  have noFront := @head?_dropWhile A space text
  unfold trim
  generalize text.dropWhile space = rest at noFront
  constructor
  · intro first isFirst
    have same : (rest.reverse.dropWhile space).getLast? = some first := by
      rw [← List.head?_reverse]
      exact isFirst
    have suffix := List.dropWhile_suffix (l := rest.reverse) space
    obtain ⟨dropped, split⟩ := suffix
    apply noFront first
    rw [← List.getLast?_reverse, ← split, List.getLast?_append, same]
    rfl
  · intro last isLast
    apply head?_dropWhile rest.reverse last
    rw [List.getLast?_reverse] at isLast
    exact isLast

/-- A text is the trimmed one with padding around it. -/
theorem exists_padding (text : List A) :
    ∃ front back, (∀ letter ∈ front, space letter) ∧ (∀ letter ∈ back, space letter) ∧
      text = front ++ (trim space text ++ back) := by
  have around : ∀ part : List A, ∀ letter ∈ part.takeWhile space, space letter :=
    fun part letter member => List.all_eq_true.mp List.all_takeWhile letter member
  refine ⟨text.takeWhile space, ((text.dropWhile space).reverse.takeWhile space).reverse, around text,
    ?_, ?_⟩
  · intro letter member
    exact around _ letter (List.mem_reverse.mp member)
  · rw [trim, ← List.reverse_append, List.takeWhile_append_dropWhile, List.reverse_reverse,
      List.takeWhile_append_dropWhile]

/-- What `trim` leaves: a trimmed word that the text is, with padding around it. -/
theorem trim_eq_iff {text word : List A} :
    trim space text = word ↔ Trimmed space word ∧
      ∃ front back, (∀ letter ∈ front, space letter) ∧ (∀ letter ∈ back, space letter) ∧
        text = front ++ (word ++ back) := by
  constructor
  · rintro rfl
    exact ⟨trimmed_trim text, exists_padding text⟩
  · rintro ⟨trimmed, front, back, frontPadded, backPadded, rfl⟩
    rw [trim_front frontPadded, trim_back backPadded trimmed.front, trim_trimmed trimmed]

/-- What is not in a text is not in the trimmed one. -/
theorem not_mem_trim {text : List A} {letter : A} (absent : letter ∉ text) :
    letter ∉ trim space text := by
  obtain ⟨front, back, -, -, same⟩ := @exists_padding A space text
  intro member
  apply absent
  rw [same]
  simp [member]

end Padding

section Cutting

variable [DecidableEq A]

/-- Where the separator stands first, a list is cut in two. -/
theorem cut_iff {separator : A} {text left right : List A} :
    (text.idxOf separator < text.length ∧ text.take (text.idxOf separator) = left ∧
        text.drop (text.idxOf separator + 1) = right) ↔
      separator ∉ left ∧ text = left ++ separator :: right := by
  constructor
  · rintro ⟨inside, rfl, rfl⟩
    obtain ⟨before, after, rfl, first⟩ := List.eq_append_cons_of_mem (List.idxOf_lt_length_iff.mp inside)
    have position : (before ++ separator :: after).idxOf separator = before.length := by
      rw [List.idxOf_append, if_neg first, List.idxOf_cons_self, Nat.zero_add]
    rw [position]
    constructor
    · simpa using first
    · simp
  · rintro ⟨first, rfl⟩
    have position : (left ++ separator :: right).idxOf separator = left.length := by
      rw [List.idxOf_append, if_neg first, List.idxOf_cons_self, Nat.zero_add]
    rw [position]
    refine ⟨?_, ?_, ?_⟩
    · simp
    · simp
    · simp

end Cutting

end StoredsBench.Lib.Trimming
