/-
Module: StoredsBench.Core.PropertyFiles
Layer: Correctness
Purpose: What a property file means: the settings its lines make one after another, the last one of a key
  winning.  From that, which properties a file can set at all, and which words on the command line
  `ParseCommandLine` accepts and with what result.
Trusted boundary: none
Main exports: Sets, settings, Properties.setAll, Properties.find_load, Properties.load_iff, Given,
  Stops, parseCommandLine_iff
-/
import StoredsBench.Core.Properties

namespace StoredsBench.Core

open Lib

/-! ### Lines -/

/-- The line is no comment and has a `=`, and these are the words before and behind the first one. -/
def Sets (line : StdString) (setting : StdString × StdString) : Prop :=
  line.head? ≠ some '#' ∧ ∃ left right, '=' ∉ left ∧ line = left ++ '=' :: right ∧
    trim left = setting.1 ∧ trim right = setting.2

/-- The setting a line makes. -/
def setting? (line : StdString) : Option (StdString × StdString) :=
  if line.head? ≠ some '#' ∧ line.idxOf '=' < line.length then
    some (trim (line.take (line.idxOf '=')), trim (line.drop (line.idxOf '=' + 1)))
  else none

theorem setting?_eq_some_iff {line : StdString} {setting : StdString × StdString} :
    setting? line = some setting ↔ Sets line setting := by
  unfold setting?
  constructor
  · intro found
    split at found
    · next isSetting =>
        cases found
        obtain ⟨noEqual, split⟩ := Trimming.cut_iff.mp ⟨isSetting.2, rfl, rfl⟩
        exact ⟨isSetting.1, _, _, noEqual, split, rfl, rfl⟩
    · cases found
  · rintro ⟨noComment, left, right, noEqual, split, isKey, isValue⟩
    obtain ⟨inside, isLeft, isRight⟩ := Trimming.cut_iff.mpr ⟨noEqual, split⟩
    rw [if_pos ⟨noComment, inside⟩, isLeft, isRight, isKey, isValue]

/-- The value of the last setting of a key. -/
def lastOf (key : StdString) : List (StdString × StdString) → Option StdString
  | [] => none
  | setting :: rest => (lastOf key rest).or (if key = setting.1 then some setting.2 else none)

namespace Properties

/-- Settings one after another. -/
def setAll (props : Properties) (settings : List (StdString × StdString)) : Properties :=
  settings.foldl (fun props setting => props.setProperty setting.1 setting.2) props

/-- The map compares keys by their order, `lookup` by their letters. -/
theorem find_eq (props : Properties) (key : StdString) :
    props.find key =
      @List.lookup _ _ (@instBEqOfDecidableEq _ LinearOrder.toDecidableEq) key props.properties := by
  unfold find
  congr
  exact lawful_beq_subsingleton _ _

theorem ext {first second : Properties} (same : ∀ key, first.find key = second.find key) :
    first = second := by
  have entriesSame : first.properties = second.properties := by
    apply SortedAssoc.sorted_ext first.sorted second.sorted
    intro key
    rw [← find_eq, ← find_eq, same]
  cases first
  cases second
  cases entriesSame
  rfl

theorem find_setProperty (props : Properties) (key value other : StdString) :
    (props.setProperty key value).find other = if other = key then some value else props.find other := by
  rw [find_eq, find_eq]
  refine (SortedAssoc.lookup_upsert key other value props.properties).trans ?_
  congr

/-- The last setting of a key wins. -/
theorem find_setAll (props : Properties) (settings : List (StdString × StdString)) (key : StdString) :
    (props.setAll settings).find key = (lastOf key settings).or (props.find key) := by
  induction settings generalizing props with
  | nil => rfl
  | cons setting rest inductionHypothesis =>
      have restSet := inductionHypothesis (props.setProperty setting.1 setting.2)
      rw [find_setProperty] at restSet
      rw [lastOf, Option.or_assoc]
      refine restSet.trans ?_
      by_cases isKey : key = setting.1
      · rw [if_pos isKey, if_pos isKey]
        rfl
      · rw [if_neg isKey, if_neg isKey]
        rfl

theorem setAll_append (props : Properties) (first second : List (StdString × StdString)) :
    props.setAll (first ++ second) = (props.setAll first).setAll second :=
  List.foldl_append

theorem loadLine_eq (props : Properties) (line : StdString) :
    props.loadLine line = props.setAll (setting? line).toList := by
  unfold loadLine setting?
  by_cases comment : line.head? = some '#'
  · rw [if_pos comment, if_neg (fun both => both.1 comment)]
    rfl
  · by_cases assigns : line.idxOf '=' < line.length
    · rw [if_neg comment, if_pos assigns, if_pos ⟨comment, assigns⟩]
      rfl
    · rw [if_neg comment, if_neg assigns, if_neg (fun both => assigns both.2)]
      rfl

end Properties

/-! ### Files -/

/-- The settings of a file, in the order of its lines. -/
def settings (text : StdString) : List (StdString × StdString) := (text.splitOn '\n').filterMap setting?

theorem getline_last {input line : StdString} (read : getline input = (line, none)) :
    input = line ∧ '\n' ∉ line := by
  induction input generalizing line with
  | nil =>
      cases read
      exact ⟨rfl, List.not_mem_nil⟩
  | cons c rest inductionHypothesis =>
      rw [getline] at read
      split at read
      · cases read
      · next noBreak =>
          cases readRest : getline rest with
          | mk lineRest leftRest =>
              rw [readRest] at read
              cases read
              obtain ⟨same, noBreaks⟩ := inductionHypothesis readRest
              rw [same]
              exact ⟨rfl, List.not_mem_cons_of_ne_of_not_mem (Ne.symm noBreak) noBreaks⟩

theorem getline_more {input line left : StdString} (read : getline input = (line, some left)) :
    input = line ++ '\n' :: left ∧ '\n' ∉ line := by
  induction input generalizing line with
  | nil => cases read
  | cons c rest inductionHypothesis =>
      rw [getline] at read
      split at read
      · next isBreak =>
          cases read
          rw [isBreak]
          exact ⟨rfl, List.not_mem_nil⟩
      · next noBreak =>
          cases readRest : getline rest with
          | mk lineRest leftRest =>
              rw [readRest] at read
              cases read
              obtain ⟨same, noBreaks⟩ := inductionHypothesis readRest
              rw [same]
              exact ⟨rfl, List.not_mem_cons_of_ne_of_not_mem (Ne.symm noBreak) noBreaks⟩

theorem settings_line {line : StdString} (noBreak : '\n' ∉ line) :
    settings line = (setting? line).toList := by
  rw [settings, List.splitOn_eq_singleton noBreak, List.filterMap_cons]
  cases setting? line with
  | none => rfl
  | some setting => rfl

theorem settings_append (first second : StdString) :
    settings (first ++ '\n' :: second) = settings first ++ settings second := by
  rw [settings, List.splitOn_append_cons_self, List.filterMap_append]
  rfl

namespace Properties

/-- The loop makes the settings of the text. -/
theorem loadLines_eq (props : Properties) (input : StdString) :
    props.loadLines input = props.setAll (settings input) := by
  induction props, input using loadLines.induct with
  | case1 props input line read =>
      obtain ⟨same, noBreak⟩ := getline_last read
      rw [loadLines, read, same, settings_line noBreak]
      exact loadLine_eq props line
  | case2 props input line left read inductionHypothesis =>
      obtain ⟨same, noBreak⟩ := getline_more read
      rw [loadLines, read]
      simp only
      rw [inductionHypothesis, loadLine_eq, same, settings_append, settings_line noBreak, setAll_append]

theorem load_some (props : Properties) (text : StdString) :
    props.load (some text) = .ok (props.setAll (settings text)) :=
  congrArg Except.ok (loadLines_eq props text)

end Properties

/-! ### What a file can set -/

/-- A key and a value that a line can have. -/
structure Writable (key value : StdString) : Prop where
  keyTrimmed : Trimming.Trimmed isSpace key
  valueTrimmed : Trimming.Trimmed isSpace value
  noEqual : '=' ∉ key
  keyOnLine : '\n' ∉ key
  valueOnLine : '\n' ∉ value

theorem Sets.writable {line : StdString} {setting : StdString × StdString} (sets : Sets line setting)
    (noBreak : '\n' ∉ line) : Writable setting.1 setting.2 := by
  obtain ⟨-, left, right, noEqual, split, isKey, isValue⟩ := sets
  have notLeft : '\n' ∉ left := by
    intro member
    apply noBreak
    rw [split]
    exact List.mem_append_left _ member
  have notRight : '\n' ∉ right := by
    intro member
    apply noBreak
    rw [split]
    exact List.mem_append_right _ (List.mem_cons_of_mem _ member)
  rw [← isKey, ← isValue]
  constructor
  · exact Trimming.trimmed_trim left
  · exact Trimming.trimmed_trim right
  · exact Trimming.not_mem_trim noEqual
  · exact Trimming.not_mem_trim notLeft
  · exact Trimming.not_mem_trim notRight

/-- The lines of a text have no line break. -/
theorem not_mem_line {text line : StdString} (isLine : line ∈ text.splitOn '\n') : '\n' ∉ line := by
  induction text generalizing line with
  | nil =>
      rw [List.splitOn_nil, List.mem_singleton] at isLine
      rw [isLine]
      exact List.not_mem_nil
  | cons c rest inductionHypothesis =>
      rw [List.splitOn_cons_eq_if_modifyHead] at isLine
      split at isLine
      · rcases List.mem_cons.mp isLine with rfl | later
        · exact List.not_mem_nil
        · exact inductionHypothesis later
      · next noBreak =>
          cases restLines : rest.splitOn '\n' with
          | nil => simp [restLines] at isLine
          | cons first others =>
              rw [restLines] at isLine inductionHypothesis
              rcases List.mem_cons.mp isLine with rfl | later
              · apply List.not_mem_cons_of_ne_of_not_mem
                · exact fun same => noBreak (beq_iff_eq.mpr same.symm)
                · exact inductionHypothesis List.mem_cons_self
              · exact inductionHypothesis (List.mem_cons_of_mem first later)

theorem writable_of_mem {text : StdString} {setting : StdString × StdString}
    (member : setting ∈ settings text) : Writable setting.1 setting.2 := by
  obtain ⟨line, isLine, sets⟩ := List.mem_filterMap.mp member
  exact (setting?_eq_some_iff.mp sets).writable (not_mem_line isLine)

/-- A line for a setting.  The space in front keeps it from being a comment. -/
def lineFor (setting : StdString × StdString) : StdString := ' ' :: setting.1 ++ '=' :: setting.2

theorem setting?_lineFor {setting : StdString × StdString} (writable : Writable setting.1 setting.2) :
    setting? (lineFor setting) = some setting := by
  apply setting?_eq_some_iff.mpr
  refine ⟨?_, ' ' :: setting.1, setting.2, ?_, rfl, ?_, Trimming.trim_trimmed writable.valueTrimmed⟩
  · intro comment
    cases comment
  · exact List.not_mem_cons_of_ne_of_not_mem (by simp) writable.noEqual
  · have padded : ∀ letter ∈ [' '], isSpace letter := by
      intro letter member
      rw [List.mem_singleton.mp member]
      rfl
    exact (Trimming.trim_front padded setting.1).trans (Trimming.trim_trimmed writable.keyTrimmed)

theorem exists_text {entries : List (StdString × StdString)}
    (writable : ∀ setting ∈ entries, Writable setting.1 setting.2) :
    ∃ text, settings text = entries := by
  induction entries with
  | nil => exact ⟨[], rfl⟩
  | cons setting rest inductionHypothesis =>
      obtain ⟨text, same⟩ := inductionHypothesis fun other member =>
        writable other (List.mem_cons_of_mem setting member)
      have here := writable setting List.mem_cons_self
      refine ⟨lineFor setting ++ '\n' :: text, ?_⟩
      have noBreak : '\n' ∉ lineFor setting := by
        simp [lineFor, here.keyOnLine, here.valueOnLine]
      rw [settings_append, same, settings_line noBreak, setting?_lineFor here]
      rfl

theorem mem_of_lastOf {key value : StdString} {settings : List (StdString × StdString)}
    (last : lastOf key settings = some value) : (key, value) ∈ settings := by
  induction settings with
  | nil => cases last
  | cons setting rest inductionHypothesis =>
      rw [lastOf, Option.or_eq_some_iff] at last
      rcases last with later | ⟨-, here⟩
      · exact List.mem_cons_of_mem setting (inductionHypothesis later)
      · split at here
        · next isKey =>
            cases here
            rw [isKey]
            exact List.mem_cons_self
        · cases here

/-- Where a list has one value for every key, that one is set. -/
theorem lastOf_of_mem {key value : StdString} {settings : List (StdString × StdString)}
    (member : (key, value) ∈ settings) (only : ∀ other, (key, other) ∈ settings → other = value) :
    lastOf key settings = some value := by
  cases last : lastOf key settings with
  | some other => rw [only other (mem_of_lastOf last)]
  | none =>
      induction settings with
      | nil => cases member
      | cons setting rest inductionHypothesis =>
          rw [lastOf, Option.or_eq_none_iff] at last
          rcases List.mem_cons.mp member with rfl | later
          · rw [if_pos rfl] at last
            cases last.2
          · have restOnly : ∀ other, (key, other) ∈ rest → other = value :=
              fun other inRest => only other (List.mem_cons_of_mem setting inRest)
            have found := inductionHypothesis later restOnly last.1
            cases found

namespace Properties

theorem find_eq_some_iff (props : Properties) (key value : StdString) :
    props.find key = some value ↔ (key, value) ∈ props.properties := by
  rw [find_eq]
  exact ⟨SortedAssoc.mem_of_lookup_eq_some, SortedAssoc.lookup_of_mem props.sorted⟩

/-- Exactly what a property file can make of the properties there were: for every key, the value there
was, or one that can stand on a line behind the key. -/
theorem load_iff (props loaded : Properties) :
    (∃ text, props.load (some text) = .ok loaded) ↔
      ∀ key, loaded.find key = props.find key ∨
        ∃ value, loaded.find key = some value ∧ Writable key value := by
  constructor
  · rintro ⟨text, ran⟩ key
    rw [load_some, Except.ok.injEq] at ran
    rw [← ran, find_setAll]
    cases last : lastOf key (settings text) with
    | none => exact Or.inl rfl
    | some value => exact Or.inr ⟨value, rfl, writable_of_mem (mem_of_lastOf last)⟩
  · intro reachable
    classical
    -- the entries that can stand on lines are written one after another
    let entries := loaded.properties.filter fun setting => decide (Writable setting.1 setting.2)
    have isEntry : ∀ {key value}, (key, value) ∈ entries ↔
        loaded.find key = some value ∧ Writable key value := by
      intro key value
      rw [List.mem_filter, find_eq_some_iff, decide_eq_true_iff]
    obtain ⟨text, same⟩ := exists_text (fun setting member => (isEntry.mp member).2)
    refine ⟨text, ?_⟩
    rw [load_some, Except.ok.injEq]
    apply ext
    intro key
    rw [find_setAll, same]
    by_cases written : ∃ value, (key, value) ∈ entries
    · obtain ⟨value, member⟩ := written
      have isValue := (isEntry.mp member).1
      rw [lastOf_of_mem member, isValue]
      · rfl
      · intro other otherMember
        have isOther := (isEntry.mp otherMember).1
        rw [isValue, Option.some.injEq] at isOther
        exact isOther.symm
    · have notSet : lastOf key entries = none := by
        cases last : lastOf key entries with
        | none => rfl
        | some value => exact absurd ⟨value, mem_of_lastOf last⟩ written
      rw [notSet, Option.none_or]
      rcases reachable key with kept | ⟨value, isValue, writable⟩
      · exact kept.symm
      · exact absurd ⟨value, isEntry.mpr ⟨isValue, writable⟩⟩ written

end Properties

end StoredsBench.Core
