import BytecodeFlow.CommandLine.Arguments

/-!
# Running the command

* `Settings.report` — the report on the code in a text, with what is worth telling beside it.
* `Host` — what a run needs from its surroundings: reading and writing files.
* `Failure` — why a run ends without its report.
* `run` — a run, from the arguments to the `Outcome`.

The surroundings are a parameter, so that what a run does is determined by what they answer.
-/

namespace BytecodeFlow.CommandLine

/-! ## Failures -/

/-- Why a run ends without its report. -/
inductive Failure where
  /-- The input file cannot be read, for the reason that the system gives. -/
  | unreadable (path reason : String)
  /-- The input is blank. -/
  | noCode
  /-- The input is not hexadecimal. -/
  | invalidInput (cause : Hex.Error)
  /-- A piece of code in a batch is not hexadecimal. -/
  | invalidContract (number : Nat) (cause : Hex.Error)
  | analysisFailed (cause : Error)
  /-- The report cannot be written, for the reason that the system gives. -/
  | unwritable (path reason : String)
deriving DecidableEq, Repr

/-- A cause with the causes behind it, as texts. -/
def chain (cause : Error) : List String :=
  cause.message :: match cause with
    | .invalidHex inner => [inner.message]
    | _ => []

namespace Failure

/-- What failed. -/
def context : Failure → String
  | .unreadable path _ => "Failed to read " ++ path
  | .noCode => "No bytecode given"
  | .invalidInput _ => "Input is not valid hex"
  | .invalidContract number _ => "Invalid hex on contract " ++ toString number
  | .analysisFailed _ => "Analysis failed"
  | .unwritable path _ => "Failed to write " ++ path

/-- Why it failed, each cause before the one behind it. -/
def causes : Failure → List String
  | .unreadable _ reason => [reason]
  | .noCode => []
  | .invalidInput cause => chain (.invalidHex cause)
  | .invalidContract _ cause => chain (.invalidHex cause)
  | .analysisFailed cause => chain cause
  | .unwritable _ reason => [reason]

/-- The causes as lines, which are numbered if there are several. -/
def causeLines : List String → String
  | [] => ""
  | [cause] => "\nCaused by:\n    " ++ cause ++ "\n"
  | causes =>
    "\nCaused by:\n" ++ String.join (causes.zipIdx.map fun (cause, number) =>
      Text.padLeft 5 (toString number) ++ ": " ++ cause ++ "\n")

/-- **The text of a failure**: what failed, and why. -/
def text (f : Failure) : String :=
  "Error: " ++ f.context ++ "\n" ++ causeLines f.causes

end Failure

/-! ## Reports -/

/-- Something worth telling about a run. -/
inductive Notice where
  | warning (w : Warning)
  /-- A piece of code in a batch was left out. -/
  | skipped (number : Nat) (cause : Error)
deriving DecidableEq, Repr

/-- The wording of a notice. -/
def Notice.message : Notice → String
  | .warning w => w.message
  | .skipped number cause => "Contract " ++ toString number ++ " skipped: " ++ cause.message

/-- The report of a run, and what is worth telling beside it. -/
structure Product where
  text : String
  notices : List Notice
deriving DecidableEq, Repr

namespace Settings

/-- The options of the analysis. -/
def analysisOptions (s : Settings) : Analysis.Options :=
  ⟨s.strategy, !s.noPaths, ⟨some s.maxPaths, some s.maxSteps⟩⟩

/-- The report of an analysis. -/
def render (s : Settings) (a : Analysis) : String :=
  s.format.render ⟨s.ngramSize, s.ngramOperands⟩ a

/-- The report on one piece of code. -/
def reportOne (s : Settings) (text : String) : Except Failure Product := do
  let bytes ← (Hex.parse text).mapError .invalidInput
  let a ← (analyze bytes.toArray s.analysisOptions).mapError .analysisFailed
  return ⟨s.render a, a.warnings.map .warning⟩

/-- The pieces of code in a batch: the lines that are neither blank nor comments, trimmed. -/
def contractLines (text : String) : List (List Char) :=
  ((text.toList.splitOn '\n').map Text.trim).filter fun line =>
    !line.isEmpty && line.head? ≠ some '#'

/-- The code of a batch, or the first piece of it that is not hexadecimal. -/
def contracts (text : String) : Except Failure (List Image) :=
  (contractLines text).zipIdx.mapM fun (line, i) =>
    ((Hex.parse (String.ofList line)).mapError (.invalidContract (i + 1))).map List.toArray

/-- The sections of a batch report: those of the pieces that could be analysed. -/
def sections (s : Settings) (results : List (Except Error Analysis)) : List String :=
  results.filterMap fun
    | .ok a => some (s.render a)
    | .error _ => none

/-- What is worth telling about the piece with a given number. -/
def noticesOf (result : Except Error Analysis) (number : Nat) : List Notice :=
  match result with
  | .ok a => a.warnings.map .warning
  | .error cause => [.skipped number cause]

/-- The report on a batch: the sections with a line break between them. -/
def reportBatch (s : Settings) (text : String) : Except Failure Product := do
  let images ← contracts text
  let results := analyzeAll images s.analysisOptions
  return ⟨String.intercalate "\n" (s.sections results),
    results.zipIdx.flatMap fun (result, i) => noticesOf result (i + 1)⟩

/-- **The report on the code in a text.** -/
def report (s : Settings) (text : String) : Except Failure Product :=
  if s.batch then s.reportBatch text else s.reportOne text

end Settings

/-! ## Surroundings -/

/-- What a run needs from its surroundings.  Reasons for failure are given as texts. -/
structure Host (m : Type → Type) where
  /-- Whether a name is that of a file. -/
  isFile : String → m Bool
  /-- The bytes of a file. -/
  read : String → m (Except String ByteArray)
  /-- Makes a text the content of a file. -/
  write : String → String → m (Except String Unit)

/-- The end of a run. -/
structure Outcome where
  /-- Zero for success, one for a failure, two for arguments that are refused. -/
  code : Nat
  /-- What is printed. -/
  printed : String
  notices : List Notice
  failure : Option Failure
  refusal : Option UsageError
deriving DecidableEq, Repr

namespace Outcome

/-- A successful end. -/
def success (printed : String) (notices : List Notice) : Outcome :=
  ⟨0, printed, notices, none, none⟩

/-- An end without the report. -/
def failed (f : Failure) (notices : List Notice) : Outcome :=
  ⟨1, "", notices, some f, none⟩

/-- An end before the start. -/
def refused (e : UsageError) : Outcome :=
  ⟨2, "", [], none, some e⟩

end Outcome

/-- The version of the command. -/
def versionText : String := "evmflow 0.1.0\n"

/-- A short help. -/
def helpText : String :=
  "Usage: evmflow [OPTIONS] <INPUT>\n\nOptions:\n"
    ++ String.join (Switch.all.map fun s =>
      "  --" ++ s.long ++ (if s.takesValue then " <VALUE>" else "") ++ "\n")

/-- Whether an input is written out in the argument, whatever files there are. -/
def isMarked (input : String) : Bool :=
  "0x".toList.isPrefixOf input.toList

/-- The text of an input that names a file. -/
def fileText (path : String) (content : Except String ByteArray) : Except Failure String :=
  match content with
  | .error reason => .error (.unreadable path reason)
  | .ok bytes =>
    match String.fromUTF8? bytes with
    | some text => .ok text
    | none => .error (.unreadable path "stream did not contain valid UTF-8")

/-- The text of an input that names no file. -/
def argumentText (input : String) : Except Failure String :=
  if (Text.trim input.toList).isEmpty then .error .noCode else .ok input

/-- The text that a run works on: the content of the file that the input names, or else the input
itself. -/
def inputText {m : Type → Type} [Monad m] (host : Host m) (input : String) :
    m (Except Failure String) := do
  if isMarked input then return argumentText input
  if ← host.isFile input then return fileText input (← host.read input)
  return argumentText input

/-- The end of a run with a report. -/
def deliver {m : Type → Type} [Monad m] (host : Host m) (s : Settings) (product : Product) :
    m Outcome := do
  match s.output with
  | none => return .success product.text product.notices
  | some path =>
    match ← host.write path product.text with
    | .ok () => return .success "" product.notices
    | .error reason => return .failed (.unwritable path reason) product.notices

/-- A run with given settings. -/
def execute {m : Type → Type} [Monad m] (host : Host m) (s : Settings) : m Outcome := do
  match ← inputText host s.input with
  | .error f => return .failed f []
  | .ok text =>
    match s.report text with
    | .error f => return .failed f []
    | .ok product => deliver host s product

/-- **A run of the command** with given arguments. -/
def run {m : Type → Type} [Monad m] (host : Host m) (arguments : List String) : m Outcome :=
  match parse arguments with
  | .error e => return .refused e
  | .ok .help => return .success helpText []
  | .ok .version => return .success versionText []
  | .ok (.run s) => execute host s

end BytecodeFlow.CommandLine
