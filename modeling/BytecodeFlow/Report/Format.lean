import BytecodeFlow.Report.Document
import BytecodeFlow.Report.Listing
import BytecodeFlow.Report.Ngram
import BytecodeFlow.Report.Table

/-!
# The kinds of report

* `Format` — the kinds of report.
* `Format.parse` — the kind that a text names, in any case.
* `Format.render` — the report of an analysis.
-/

namespace BytecodeFlow.Report

/-- A kind of report. -/
inductive Format where
  /-- Plain text for reading. -/
  | text
  /-- One JSON document. -/
  | json
  /-- JSON Lines. -/
  | lines
  /-- Comma-separated values. -/
  | table
  /-- Counts of opcode sequences. -/
  | ngram
deriving DecidableEq, Repr

namespace Format

/-- All kinds, the default one first. -/
def all : List Format := [.text, .json, .lines, .table, .ngram]

/-- The name of a kind. -/
def name : Format → String
  | .text => "text"
  | .json => "json"
  | .lines => "jsonl"
  | .table => "csv"
  | .ngram => "ngram"

/-- The names that select a kind on the command line. -/
def optionNames : List (String × Format) :=
  all.map (fun format => (format.name, format)) ++ [("jsonlines", .lines)]

/-- A text that names no kind. -/
structure ParseError where
  /-- The text as it was given. -/
  given : String
deriving DecidableEq, Repr

/-- The wording of the error. -/
def ParseError.message (e : ParseError) : String :=
  "Unknown output format: " ++ e.given

/-- **The kind that a text names.**  The case does not matter: no letter outside ASCII has one of
the letters of these names as its lower case, so ASCII letters are all there is to lower. -/
def parse (given : String) : Except ParseError Format :=
  match (optionNames ++ [("ngrams", Format.ngram)]).lookup
      (String.ofList (given.toList.map Char.toLower)) with
  | some format => .ok format
  | none => .error ⟨given⟩

/-- **The report of an analysis.**  The options for sequences concern one kind only. -/
def render (format : Format) (options : Ngram.Options) (a : Analysis) : String :=
  match format with
  | .text => Listing.render a
  | .json => Document.render a
  | .lines => Lines.render a
  | .table => Table.render a
  | .ngram => Ngram.render options a

end Format

end BytecodeFlow.Report
