/-
Module: StoredsBench.Core.CommandLine
Layer: Correctness
Purpose: The command lines `ParseCommandLine` accepts, as lists of options with their operands, the
  settings they make together with the property files, and how the program ends for every other one.
Trusted boundary: none
Main exports: Given, Given.words, Given.settings, Stops, parseOptions_given, parseCommandLine_iff
-/
import StoredsBench.Core.PropertyFiles

namespace StoredsBench.Core

open Lib

/-- An option with its operand. -/
inductive Given where
  | property (option : PropertyOption) (operand : StdString)
  | file (name : StdString)

namespace Given

/-- Its words on the command line. -/
def words : Given → List StdString
  | .property option operand => [option.text, operand]
  | .file name => [fileOption, name]

/-- The settings it makes. -/
def settings (files : StdString → Option StdString) : Given → List (StdString × StdString)
  | .property option operand => [(option.property, operand)]
  | .file name =>
      match files name with
      | none => []
      | some text => Core.settings text

/-- Its file can be opened, if it names one. -/
def Opens (files : StdString → Option StdString) : Given → Prop
  | .property _ _ => True
  | .file name => (files name).isSome

/-- The file name that is kept. -/
def filename (kept : StdString) : Given → StdString
  | .property _ _ => kept
  | .file name => name

end Given

/-- The words of a list of options. -/
def wordsOf (given : List Given) : List StdString := given.flatMap Given.words

/-- The last file of a list of options. -/
def lastFile (kept : StdString) (given : List Given) : StdString := given.foldl Given.filename kept

/-- An argument that is an option. -/
def IsOption (argument : StdString) : Prop :=
  argument = fileOption ∨ ∃ option : PropertyOption, argument = option.text

section Loop

variable {files : StdString → Option StdString} {command : StdString}

theorem find?_text (option : PropertyOption) :
    PropertyOption.all.find? (fun other => option.text == other.text) = some option := by
  cases option <;> rfl

theorem find?_none {argument : StdString} (unknown : ∀ option : PropertyOption, argument ≠ option.text) :
    PropertyOption.all.find? (fun other => argument == other.text) = none := by
  rw [List.find?_eq_none]
  intro option _ same
  exact unknown option (eq_of_beq same)

theorem strStartWith_text (option : PropertyOption) : strStartWith option.text "-".toList := by
  cases option <;> rfl

/-- An option with an operand takes the loop one round further. -/
theorem parseOptions_words (given : Given) (opens : given.Opens files) (left : List StdString)
    (filename : StdString) (props : Properties) :
    parseOptions files command (given.words ++ left) filename props =
      parseOptions files command left (given.filename filename) (props.setAll (given.settings files)) := by
  cases given with
  | property option operand =>
      rw [Given.words, List.cons_append, List.cons_append, List.nil_append, parseOptions,
        if_pos (strStartWith_text option), find?_text]
      rfl
  | file name =>
      obtain ⟨text, opened⟩ := Option.isSome_iff_exists.mp opens
      rw [Given.words, List.cons_append, List.cons_append, List.nil_append, parseOptions, if_pos rfl]
      have isFile : PropertyOption.all.find? (fun other => fileOption == other.text) = none := rfl
      simp only [isFile, opened, Properties.load_some, Given.settings]
      rfl

/-- The loop goes over all the options with operands in front. -/
theorem parseOptions_given (given : List Given) (opens : ∀ one ∈ given, one.Opens files)
    (left : List StdString) (filename : StdString) (props : Properties) :
    parseOptions files command (wordsOf given ++ left) filename props =
      parseOptions files command left (lastFile filename given)
        (props.setAll (given.flatMap (Given.settings files))) := by
  induction given generalizing filename props with
  | nil => rfl
  | cons one rest inductionHypothesis =>
      have here := @parseOptions_words files command one (opens one List.mem_cons_self)
        (wordsOf rest ++ left) filename props
      rw [wordsOf, List.flatMap_cons, List.append_assoc, List.flatMap_cons, Properties.setAll_append]
      refine here.trans ?_
      exact inductionHypothesis (fun other member => opens other (List.mem_cons_of_mem one member)) _ _

/-- How the program ends when the options with operands in front are `given`, and this is what follows
them. -/
inductive Stops (files : StdString → Option StdString) (command : StdString) :
    List Given → List StdString → Stop → Prop where
  | noArgument : Stops files command [] [] (.exit (usageMessage command))
  | noDash {given : List Given} {argument : StdString} (rest : List StdString) :
      ¬ strStartWith argument "-".toList →
      Stops files command given (argument :: rest) (.exit (usageMessage command))
  | noOperand {given : List Given} {argument : StdString} :
      IsOption argument → Stops files command given [argument] (.exit (usageMessage command))
  | unknown {given : List Given} {argument : StdString} (rest : List StdString) :
      strStartWith argument "-".toList → ¬ IsOption argument →
      Stops files command given (argument :: rest) (.exit [unknownOption argument])
  | notOpen {given : List Given} {name : StdString} (rest : List StdString) :
      files name = none →
      Stops files command given (fileOption :: name :: rest)
        (.uncaught { message := "File not open!".toList })

/-- Every command line is options with their operands, and nothing or something the loop stops at. -/
theorem exists_given (files : StdString → Option StdString) (command : StdString) :
    ∀ arguments : List StdString, ∃ given left, arguments = wordsOf given ++ left ∧
      (∀ one ∈ given, Given.Opens files one) ∧
      (given ≠ [] ∧ left = [] ∨ ∃ stop, Stops files command given left stop)
  | [] => ⟨[], [], rfl, by simp, Or.inr ⟨_, .noArgument⟩⟩
  | argument :: rest => by
      have stopped : ∀ {stop}, Stops files command [] (argument :: rest) stop →
          ∃ given left, argument :: rest = wordsOf given ++ left ∧
            (∀ one ∈ given, Given.Opens files one) ∧
            (given ≠ [] ∧ left = [] ∨ ∃ stop, Stops files command given left stop) :=
        fun stops => ⟨[], argument :: rest, rfl, by simp, Or.inr ⟨_, stops⟩⟩
      by_cases isOption : IsOption argument
      · cases rest with
        | nil => exact stopped (.noOperand isOption)
        | cons operand rest =>
            have goOn : ∀ one : Given, one.words = [argument, operand] → one.Opens files →
                ∃ given left, argument :: operand :: rest = wordsOf given ++ left ∧
                  (∀ one ∈ given, Given.Opens files one) ∧
                  (given ≠ [] ∧ left = [] ∨ ∃ stop, Stops files command given left stop) := by
              intro one isWords opens
              obtain ⟨given, left, same, allOpen, ends⟩ := exists_given files command rest
              refine ⟨one :: given, left, ?_, List.forall_mem_cons.mpr ⟨opens, allOpen⟩, ?_⟩
              · rw [wordsOf, List.flatMap_cons, isWords, List.append_assoc, same]
                rfl
              · rcases ends with ⟨-, finished⟩ | ⟨stop, stops⟩
                · exact Or.inl ⟨List.cons_ne_nil one given, finished⟩
                · cases stops with
                  | noArgument => exact Or.inl ⟨List.cons_ne_nil one [], rfl⟩
                  | noDash rest noDash => exact Or.inr ⟨_, .noDash rest noDash⟩
                  | noOperand isOption => exact Or.inr ⟨_, .noOperand isOption⟩
                  | unknown rest dash unknown => exact Or.inr ⟨_, .unknown rest dash unknown⟩
                  | notOpen rest notOpen => exact Or.inr ⟨_, .notOpen rest notOpen⟩
            rcases isOption with rfl | ⟨option, rfl⟩
            · cases opened : files operand with
              | none => exact stopped (.notOpen rest opened)
              | some text => exact goOn (.file operand) rfl (by simp [Given.Opens, opened])
            · exact goOn (.property option operand) rfl trivial
      · by_cases dash : strStartWith argument "-".toList
        · exact stopped (.unknown rest dash isOption)
        · exact stopped (.noDash rest dash)

/-- The loop at an argument it stops at. -/
theorem parseOptions_stops {given : List Given} {left : List StdString} {stop : Stop}
    (stops : Stops files command given left stop) (filename : StdString) (props : Properties) :
    parseOptions files command left filename props = .error stop ∨
      parseOptions files command left filename props = .ok (left, filename, props) ∧
        stop = .exit (usageMessage command) ∧ (left = [] → given = []) := by
  cases stops with
  | noArgument => exact Or.inr ⟨rfl, rfl, fun _ => rfl⟩
  | noDash rest noDash =>
      refine Or.inr ⟨?_, rfl, fun isEmpty => nomatch isEmpty⟩
      unfold parseOptions
      rw [if_neg noDash]
  | noOperand isOption =>
      apply Or.inl
      rcases isOption with rfl | ⟨option, rfl⟩
      · rfl
      · unfold parseOptions
        simp only [strStartWith_text, if_true, find?_text]
  | @unknown given argument rest dash unknown =>
      apply Or.inl
      have noText := find?_none fun option same => unknown (Or.inr ⟨option, same⟩)
      have noFile : ¬ argument = fileOption := fun same => unknown (Or.inl same)
      unfold parseOptions
      rw [if_pos dash, noText]
      exact if_neg noFile
  | notOpen rest notOpen =>
      apply Or.inl
      rw [parseOptions, if_pos rfl]
      have isFile : PropertyOption.all.find? (fun other => fileOption == other.text) = none := rfl
      simp only [isFile, notOpen, Properties.load]
      rfl

theorem length_wordsOf (given : List Given) : (wordsOf given).length = 2 * given.length := by
  induction given with
  | nil => rfl
  | cons one rest inductionHypothesis =>
      have two : one.words.length = 2 := by
        cases one <;> rfl
      rw [wordsOf, List.flatMap_cons, List.length_append, two, List.length_cons]
      unfold wordsOf at inductionHypothesis
      omega

/-- A command line of options with their operands, whose files can be opened. -/
theorem parseCommandLine_accepts {given : List Given} (someGiven : given ≠ [])
    (opens : ∀ one ∈ given, one.Opens files) (props : Properties) :
    parseCommandLine files command (wordsOf given) props =
      .ok (lastFile [] given, props.setAll (given.flatMap (Given.settings files))) := by
  have ran := @parseOptions_given files command given opens [] [] props
  rw [List.append_nil, parseOptions] at ran
  have positive := List.length_pos_of_ne_nil someGiven
  have length := length_wordsOf given
  unfold parseCommandLine
  rw [ran]
  refine if_neg ?_
  rw [List.length_nil]
  omega

theorem parseCommandLine_stops {given : List Given} {left : List StdString} {stop : Stop}
    (opens : ∀ one ∈ given, one.Opens files) (stops : Stops files command given left stop)
    (props : Properties) :
    parseCommandLine files command (wordsOf given ++ left) props = .error stop := by
  unfold parseCommandLine
  rw [parseOptions_given given opens left [] props]
  rcases parseOptions_stops stops (lastFile [] given)
    (props.setAll (given.flatMap (Given.settings files))) with failed | ⟨ended, isUsage, onlyEmpty⟩
  · rw [failed]
    rfl
  · rw [ended, isUsage]
    refine if_pos ?_
    cases left with
    | nil =>
        rw [onlyEmpty rfl]
        exact Or.inl rfl
    | cons argument rest =>
        apply Or.inr
        rw [List.length_append, List.length_cons]
        omega

end Loop

/-- `ParseCommandLine` returns exactly for options with their operands, at least one, whose files can all
be opened: with the name of the last file, and with every property as the last option or line of a file
set it.  For all other command lines the program ends, in the way the first argument behind such options
says. -/
theorem parseCommandLine_iff (files : StdString → Option StdString) (command : StdString)
    (arguments : List StdString) (props : Properties) :
    (∀ filename final, parseCommandLine files command arguments props = .ok (filename, final) ↔
      ∃ given, given ≠ [] ∧ arguments = wordsOf given ∧ (∀ one ∈ given, Given.Opens files one) ∧
        filename = lastFile [] given ∧ ∀ key, final.find key =
          (lastOf key (given.flatMap (Given.settings files))).or (props.find key)) ∧
    ∀ stop, parseCommandLine files command arguments props = .error stop ↔
      ∃ given left, arguments = wordsOf given ++ left ∧ (∀ one ∈ given, Given.Opens files one) ∧
        Stops files command given left stop := by
  obtain ⟨given, left, rfl, opens, ends⟩ := exists_given files command arguments
  constructor
  · intro filename final
    constructor
    · intro ran
      rcases ends with ⟨someGiven, rfl⟩ | ⟨stop, stops⟩
      · rw [List.append_nil, parseCommandLine_accepts someGiven opens] at ran
        cases ran
        exact ⟨given, someGiven, List.append_nil _, opens, rfl,
          fun key => Properties.find_setAll props _ key⟩
      · rw [parseCommandLine_stops opens stops] at ran
        cases ran
    · rintro ⟨accepted, someAccepted, same, acceptedOpen, rfl, isSet⟩
      have isFinal : final = props.setAll (accepted.flatMap (Given.settings files)) := by
        apply Properties.ext
        intro key
        rw [isSet, Properties.find_setAll]
      rw [same, isFinal]
      exact parseCommandLine_accepts someAccepted acceptedOpen props
  · intro stop
    constructor
    · intro ran
      rcases ends with ⟨someGiven, rfl⟩ | ⟨reason, stops⟩
      · rw [List.append_nil, parseCommandLine_accepts someGiven opens] at ran
        cases ran
      · rw [parseCommandLine_stops opens stops] at ran
        cases ran
        exact ⟨given, left, rfl, opens, stops⟩
    · rintro ⟨given', left', same, opens', stops⟩
      rw [same]
      exact parseCommandLine_stops opens' stops props

end StoredsBench.Core
