import BytecodeFlow.Report.Format

/-!
# The arguments of the command line

The command takes one input and a number of options.  An option has a long name behind two dashes,
and some have a short one behind one dash as well.

* `Switch` — the options, their names, and whether they take a value.
* `Settings`, `Command` — what the arguments ask for.
* `UsageError` — why arguments are refused.
* `parse` — the reading of the arguments, from left to right.  The value of an option follows in
  the next argument, or in the same one: behind an equals sign, or directly behind a short name.
  Short names without a value may share a dash.  After two dashes alone no argument is an option.

**Which comes first wins.**  A request for the version or for help is granted where it stands,
whatever follows; a mistake before it is reported instead.
-/

namespace BytecodeFlow.CommandLine

/-! ## Options -/

/-- An option of the command line. -/
inductive Switch where
  | strategy
  | format
  | output
  | noPaths
  | maxPaths
  | maxSteps
  | ngramSize
  | ngramOperands
  | batch
  | verbose
  | help
  | version
deriving DecidableEq, Repr

namespace Switch

/-- All options. -/
def all : List Switch :=
  [.strategy, .format, .output, .noPaths, .maxPaths, .maxSteps, .ngramSize, .ngramOperands, .batch,
    .verbose, .help, .version]

/-- The long name of an option. -/
def long : Switch → String
  | .strategy => "strategy"
  | .format => "format"
  | .output => "output"
  | .noPaths => "no-paths"
  | .maxPaths => "max-paths"
  | .maxSteps => "max-steps"
  | .ngramSize => "ngram-size"
  | .ngramOperands => "ngram-operands"
  | .batch => "batch"
  | .verbose => "verbose"
  | .help => "help"
  | .version => "version"

/-- The short name of an option, if it has one. -/
def short? : Switch → Option Char
  | .strategy => some 's'
  | .format => some 'f'
  | .output => some 'o'
  | .verbose => some 'v'
  | .help => some 'h'
  | .version => some 'V'
  | _ => none

/-- Whether a value belongs to an option. -/
def takesValue : Switch → Bool
  | .strategy | .format | .output | .maxPaths | .maxSteps | .ngramSize => true
  | _ => false

/-- The option with a long name. -/
def ofLong? (name : String) : Option Switch :=
  all.find? fun s => s.long = name

/-- The option with a short name. -/
def ofShort? (name : Char) : Option Switch :=
  all.find? fun s => s.short? = some name

end Switch

/-! ## What the arguments ask for -/

/-- The settings of a run. -/
structure Settings where
  /-- Code in hexadecimal, or the name of a file that holds it. -/
  input : String
  strategy : Strategy
  format : Report.Format
  /-- The file to write the report to, instead of printing it. -/
  output : Option String
  noPaths : Bool
  maxPaths : Nat
  maxSteps : Nat
  ngramSize : Nat
  ngramOperands : Bool
  /-- Whether every line of the input is a piece of code of its own. -/
  batch : Bool
  verbose : Bool
deriving DecidableEq, Repr

/-- What a list of arguments asks for. -/
inductive Command where
  | help
  | version
  | run (settings : Settings)
deriving DecidableEq, Repr

/-- Why arguments are refused. -/
inductive UsageError where
  | unknownOption (given : String)
  | missingValue (s : Switch)
  | unexpectedValue (s : Switch)
  | invalidValue (s : Switch) (given : String)
  | repeatedOption (s : Switch)
  | missingInput
  | extraInput (given : String)
deriving DecidableEq, Repr

/-- The wording of a refusal. -/
def UsageError.message : UsageError → String
  | .unknownOption given => "unexpected argument '" ++ given ++ "' found"
  | .missingValue s => "a value is required for '--" ++ s.long ++ "' but none was supplied"
  | .unexpectedValue s => "unexpected value for '--" ++ s.long ++ "' found; no more were expected"
  | .invalidValue s given => "invalid value '" ++ given ++ "' for '--" ++ s.long ++ "'"
  | .repeatedOption s => "the argument '--" ++ s.long ++ "' cannot be used multiple times"
  | .missingInput => "the following required arguments were not provided: <INPUT>"
  | .extraInput given => "unexpected argument '" ++ given ++ "' found"

/-- What is known of the settings while the arguments are read. -/
structure Draft where
  /-- The settings so far; the input in them counts only if there is one. -/
  settings : Settings
  hasInput : Bool
  /-- The options read so far. -/
  given : List Switch

/-- The settings that apply unless options say otherwise. -/
def Draft.start : Draft where
  settings :=
    { input := ""
      strategy := .linear
      format := .text
      output := none
      noPaths := false
      maxPaths := 10000
      maxSteps := 1000000
      ngramSize := 3
      ngramOperands := false
      batch := false
      verbose := false }
  hasInput := false
  given := []

namespace Draft

/-- The draft with an input, of which there can be one only. -/
def setInput (draft : Draft) (text : String) : Except UsageError Draft :=
  if draft.hasInput then .error (.extraInput text)
  else .ok { draft with settings := { draft.settings with input := text }, hasInput := true }

/-- The settings with an option that takes no value. -/
def raise (settings : Settings) : Switch → Settings
  | .noPaths => { settings with noPaths := true }
  | .ngramOperands => { settings with ngramOperands := true }
  | .batch => { settings with batch := true }
  | .verbose => { settings with verbose := true }
  | _ => settings

/-- A count on the command line: a decimal numeral below `2 ^ 64`. -/
def count? (text : String) : Option Nat :=
  Text.unsigned? 10 Text.wordBound text.toList

/-- The settings with the value of an option, unless the option does not admit the value. -/
def assign? (settings : Settings) (s : Switch) (value : String) : Option Settings :=
  match s with
  | .strategy =>
    (Strategy.byName.lookup value).map fun strategy => { settings with strategy := strategy }
  | .format =>
    (Report.Format.optionNames.lookup value).map fun format => { settings with format := format }
  | .output => if value = "" then none else some { settings with output := some value }
  | .maxPaths => (count? value).map fun n => { settings with maxPaths := n }
  | .maxSteps => (count? value).map fun n => { settings with maxSteps := n }
  | .ngramSize => (count? value).map fun n => { settings with ngramSize := n }
  | _ => none

/-- The draft with one more option, of which there can be one only. -/
def record (draft : Draft) (s : Switch) (settings : Settings) : Except UsageError Draft :=
  if draft.given.contains s then .error (.repeatedOption s)
  else .ok { draft with settings := settings, given := s :: draft.given }

/-- The draft with an option that takes no value. -/
def setFlag (draft : Draft) (s : Switch) : Except UsageError Draft :=
  draft.record s (raise draft.settings s)

/-- The draft with the value of an option. -/
def setValue (draft : Draft) (s : Switch) (value : String) : Except UsageError Draft :=
  match assign? draft.settings s value with
  | some settings => draft.record s settings
  | none => .error (.invalidValue s value)

/-- What the arguments ask for when none is left. -/
def finish (draft : Draft) : Except UsageError Command :=
  if draft.hasInput then .ok (.run draft.settings) else .error .missingInput

end Draft

/-! ## Reading -/

/-- Where the reading stands after an argument. -/
inductive Progress where
  /-- The next argument can be anything. -/
  | ready (draft : Draft)
  /-- The next argument is the value of an option. -/
  | awaiting (draft : Draft) (s : Switch)
  /-- The arguments ask for help or the version, and the rest of them does not matter. -/
  | granted (command : Command)

/-- The reading after an option without a value in the same argument. -/
def bare (draft : Draft) (s : Switch) : Except UsageError Progress :=
  match s with
  | .help => .ok (.granted .help)
  | .version => .ok (.granted .version)
  | s => if s.takesValue then .ok (.awaiting draft s) else Progress.ready <$> draft.setFlag s

/-- The reading after a long option, given by what stands behind its two dashes. -/
def longOption (draft : Draft) (text : List Char) : Except UsageError Progress :=
  let name := String.ofList (text.takeWhile (· ≠ '='))
  match Switch.ofLong? name with
  | none => .error (.unknownOption ("--" ++ name))
  | some s =>
    match text.dropWhile (· ≠ '=') with
    | [] => bare draft s
    | _ :: value =>
      if s.takesValue then Progress.ready <$> draft.setValue s (String.ofList value)
      else .error (.unexpectedValue s)

/-- The reading after short options, given by what stands behind their dash.  The first one that
takes a value has the rest of the argument as its value, less an equals sign in front. -/
def shortOptions (draft : Draft) : List Char → Except UsageError Progress
  | [] => .ok (.ready draft)
  | c :: rest =>
    match Switch.ofShort? c with
    | none => .error (.unknownOption (String.ofList ['-', c]))
    | some s =>
      if s.takesValue then
        match rest with
        | [] => .ok (.awaiting draft s)
        | '=' :: value => Progress.ready <$> draft.setValue s (String.ofList value)
        | value => Progress.ready <$> draft.setValue s (String.ofList value)
      else do
        match ← bare draft s with
        | .ready draft => shortOptions draft rest
        | progress => return progress

/-- Whether an argument starts like an option.  A dash alone does not. -/
def isOption (text : String) : Bool :=
  match text.toList with
  | '-' :: _ :: _ => true
  | _ => false

/-- The reading after one argument that is no value and does not end the options. -/
def argument (draft : Draft) (text : String) : Except UsageError Progress :=
  match text.toList with
  | '-' :: '-' :: name => longOption draft name
  | '-' :: c :: rest => shortOptions draft (c :: rest)
  | _ => Progress.ready <$> draft.setInput text

/-- The reading of arguments of which none is an option. -/
def inputs (draft : Draft) (arguments : List String) : Except UsageError Command := do
  (← arguments.foldlM Draft.setInput draft).finish

/-- The reading from where it stands, over the arguments that are left. -/
def resume : Progress → List String → Except UsageError Command
  | .granted command, _ => .ok command
  | .awaiting _ s, [] => .error (.missingValue s)
  | .awaiting draft s, text :: rest =>
    if isOption text then .error (.missingValue s)
    else do resume (.ready (← draft.setValue s text)) rest
  | .ready draft, [] => draft.finish
  | .ready draft, text :: rest =>
    if text = "--" then inputs draft rest
    else do resume (← argument draft text) rest
termination_by _ arguments => arguments.length

/-- **What a list of arguments asks for.** -/
def parse (arguments : List String) : Except UsageError Command :=
  resume (.ready .start) arguments

end BytecodeFlow.CommandLine
