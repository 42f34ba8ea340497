/-
Module: StoredsBench.Core.Properties
Layer: Model
Purpose: `Properties` of `core/properties.h`, with `Trim` of `core/utils.h`, and `ParseCommandLine` of
  `ycsbc.cc`, which fills one.  A stream is open with the text it holds, or not open; what the programs
  print before they exit is kept line by line.
Trusted boundary: human-reviewed spec
Main exports: StdString, trim, Properties, getline, Properties.load, PropertyOption, Stop,
  parseCommandLine
-/
import StoredsBench.Lib.SortedAssoc
import StoredsBench.Lib.Trimming
import Mathlib.Data.Char
import Mathlib.Data.List.Lex

namespace StoredsBench.Core

open Lib

/-- `std::string`. -/
abbrev StdString := List Char

/-- `std::isspace`. -/
def isSpace (c : Char) : Bool := c == ' ' || ('\t' ≤ c && c ≤ '\r')

/-- `Trim`: the two searches go over spaces from the front and from the back. -/
def trim (str : StdString) : StdString := Trimming.trim isSpace str

/-- `utils::Exception`. -/
structure Exception where
  message : StdString
deriving DecidableEq

/-- `Properties`: a `std::map` holds its entries in the order of the keys. -/
structure Properties where
  properties : List (StdString × StdString)
  sorted : SortedAssoc.Sorted properties

namespace Properties

/-- As constructed. -/
def empty : Properties where
  properties := []
  sorted := SortedAssoc.sorted_nil

/-- `find` on the map. -/
def find (props : Properties) (key : StdString) : Option StdString := props.properties.lookup key

/-- `GetProperty`. -/
def getProperty (props : Properties) (key defaultValue : StdString) : StdString :=
  match props.find key with
  | none => defaultValue
  | some value => value

/-- `SetProperty`. -/
def setProperty (props : Properties) (key value : StdString) : Properties where
  properties := SortedAssoc.upsert key value props.properties
  sorted := SortedAssoc.sorted_upsert props.sorted

/-- The body of the loop in `Load`, for a line.  An empty line has `'\0'` at its front. -/
def loadLine (props : Properties) (line : StdString) : Properties :=
  if line.head? = some '#' then props
  else
    let pos := line.idxOf '='
    if pos < line.length then
      props.setProperty (trim (line.take pos)) (trim (line.drop (pos + 1)))
    else props

end Properties

/-- `std::getline`: the line, and what the stream holds behind it, unless it met the end. -/
def getline : StdString → StdString × Option StdString
  | [] => ([], none)
  | c :: rest =>
      if c = '\n' then ([], some rest)
      else
        let (line, left) := getline rest
        (c :: line, left)

theorem length_getline {input line left : StdString} (read : getline input = (line, some left)) :
    left.length < input.length := by
  induction input generalizing line with
  | nil => simp [getline] at read
  | cons c rest inductionHypothesis =>
      rw [getline] at read
      split at read
      · cases read
        simp
      · cases readRest : getline rest with
        | mk lineRest leftRest =>
            rw [readRest] at read
            cases read
            have shorter := inductionHypothesis readRest
            exact Nat.lt_succ_of_lt shorter

namespace Properties

/-- The loop in `Load`: it ends with the line that meets the end of the stream. -/
def loadLines (props : Properties) (input : StdString) : Properties :=
  match _read : getline input with
  | (line, none) => props.loadLine line
  | (line, some left) => loadLines (props.loadLine line) left
termination_by input.length
decreasing_by exact length_getline _read

/-- `Load`. -/
def load (props : Properties) (input : Option StdString) : Except Exception Properties :=
  match input with
  | none => .error { message := "File not open!".toList }
  | some text => .ok (props.loadLines text)

end Properties

/-! ### The command line -/

/-- The options of `ParseCommandLine` that set one property to their operand. -/
inductive PropertyOption where
  | threads
  | db
  | type
  | dbpath
  | host
  | port
  | slaves
deriving DecidableEq

namespace PropertyOption

/-- In the order in which they are compared. -/
def all : List PropertyOption := [.threads, .db, .type, .dbpath, .host, .port, .slaves]

/-- The option on the command line. -/
def text : PropertyOption → StdString
  | .threads => "-threads".toList
  | .db => "-db".toList
  | .type => "-type".toList
  | .dbpath => "-dbpath".toList
  | .host => "-host".toList
  | .port => "-port".toList
  | .slaves => "-slaves".toList

/-- The property it sets. -/
def property : PropertyOption → StdString
  | .threads => "threadcount".toList
  | .db => "dbname".toList
  | .type => "type".toList
  | .dbpath => "dbpath".toList
  | .host => "host".toList
  | .port => "port".toList
  | .slaves => "slaves".toList

end PropertyOption

/-- The option that is followed by the name of a property file. -/
def fileOption : StdString := "-P".toList

/-- `StrStartWith`. -/
def strStartWith (str pre : StdString) : Bool := pre.isPrefixOf str

/-- `UsageMessage`. -/
def usageMessage (command : StdString) : List StdString :=
  [ "Usage: ".toList ++ command ++ " [options]".toList,
    "Options:".toList,
    "  -db dbname: specify the name of the DB to use (default: storeds)".toList,
    "  -threads n: execute using n threads (default: 1)".toList,
    "  -dbpath dbpath: specify the name of the PMEM memory pool file to be created".toList,
    "  -type dsname: specify the name of the data-structure to use".toList,
    "  -P propertyfile: load properties from the given file. Multiple files can".toList,
    "                   be specified, and will be processed in the order specified".toList ]

/-- How a program ends without returning: `exit(0)` after it printed some lines, or an exception that
nobody catches.  The handler around `Load` is for a `string`, and `Load` throws an `Exception`. -/
inductive Stop where
  | exit (printed : List StdString)
  | uncaught (exception : Exception)
deriving DecidableEq

/-- What is printed for an option nobody knows. -/
def unknownOption (option : StdString) : StdString :=
  "Unknown option '".toList ++ option ++ "'".toList

/-- The loop of `ParseCommandLine` over the arguments that are left, with the file name so far.  `files`
is what the files hold that can be opened. -/
def parseOptions (files : StdString → Option StdString) (command : StdString) :
    List StdString → StdString → Properties → Except Stop (List StdString × StdString × Properties)
  | [], filename, props => .ok ([], filename, props)
  | argument :: left, filename, props =>
      if strStartWith argument "-".toList then
        match PropertyOption.all.find? (fun option => argument == option.text) with
        | some option =>
            match left with
            | [] => .error (.exit (usageMessage command))
            | operand :: left =>
                parseOptions files command left filename (props.setProperty option.property operand)
        | none =>
            if argument = fileOption then
              match left with
              | [] => .error (.exit (usageMessage command))
              | operand :: left =>
                  match props.load (files operand) with
                  | .error exception => .error (.uncaught exception)
                  | .ok props => parseOptions files command left operand props
            else .error (.exit [unknownOption argument])
      else .ok (argument :: left, filename, props)

/-- `ParseCommandLine` with the arguments behind `argv[0]`, which is `command`. -/
def parseCommandLine (files : StdString → Option StdString) (command : StdString)
    (arguments : List StdString) (props : Properties) : Except Stop (StdString × Properties) := do
  let argc := arguments.length + 1
  let (left, filename, props) ← parseOptions files command arguments [] props
  let argindex := argc - left.length
  if argindex = 1 ∨ argindex ≠ argc then
    .error (.exit (usageMessage command))
  else return (filename, props)

end StoredsBench.Core
