import BytecodeFlow.Analysis
import BytecodeFlow.Json.Basic

/-!
# The report of opcode sequences

Code is recognised by the short sequences of opcodes it is made of.  The report counts every
window of `n` consecutive instructions.

* `Ngram.Options` — the length of the sequences, and whether operands are part of them.
* `Ngram.key` — the text of a sequence: its instructions with spaces between them.
* `Ngram.count` — the sequences with their counts, the most frequent first and in alphabetical
  order where they are equally frequent.
* `Ngram.render` — the counts as a JSON document.
-/

namespace BytecodeFlow.Report.Ngram

/-- Which sequences are counted. -/
structure Options where
  /-- The number of instructions in a sequence. -/
  n : Nat
  /-- Whether operands are part of a sequence. -/
  includeOperands : Bool
deriving DecidableEq, Repr

/-- The options that apply unless others are given. -/
def Options.standard : Options := ⟨3, false⟩

/-- An instruction inside a sequence. -/
def token (options : Options) (i : Instruction) : String :=
  if options.includeOperands && !i.operand.isEmpty then i.opcode.text ++ "_" ++ i.operandHex
  else i.opcode.text

/-- All runs of `n` consecutive elements of a list, for a positive `n`. -/
def windows {α : Type} (n : Nat) : List α → List (List α)
  | [] => []
  | x :: rest =>
    let window := (x :: rest).take n
    if window.length = n then window :: windows n rest else []

/-- The text of a sequence. -/
def key (options : Options) (window : List Instruction) : String :=
  String.intercalate " " (window.map (token options))

/-- Equal neighbours of a list, each once with their number. -/
def tally : List String → List (String × Nat)
  | [] => []
  | x :: rest =>
    match tally rest with
    | (y, count) :: more => if x = y then (y, count + 1) :: more else (x, 1) :: (y, count) :: more
    | [] => [(x, 1)]

/-- The order of the report: by descending count, and then by text. -/
def precedes (a b : String × Nat) : Bool :=
  b.2 < a.2 || (a.2 = b.2 && a.1 ≤ b.1)

/-- Whether a list is too short for sequences of the wanted length. -/
def isTooShort (options : Options) (instructions : List Instruction) : Bool :=
  options.n = 0 || instructions.length < options.n

/-- **The sequences of a list of instructions with their counts.** -/
def count (options : Options) (instructions : List Instruction) : List (String × Nat) :=
  if isTooShort options instructions then []
  else
    let keys := (windows options.n instructions).map (key options)
    (tally (keys.mergeSort (· ≤ ·))).mergeSort precedes

/-- The share of a count in percent, in floating-point arithmetic. -/
def percentage (count total : Nat) : Float :=
  count.toFloat / total.toFloat * 100.0

/-- One sequence as a value. -/
def entry (total : Nat) (counted : String × Nat) : Json :=
  .object [("count", .nat counted.2),
    ("percentage", .decimal (Decimal.ofFloat (percentage counted.2 total))),
    ("sequence", .string counted.1)]

/-- The answer for a list that is too short. -/
def shortage (options : Options) (found : Nat) : Json :=
  .object [("include_operands", .bool options.includeOperands), ("n", .nat options.n),
    ("ngrams", .array []),
    ("warning", .string ("Not enough instructions for " ++ toString options.n
      ++ "-grams (found " ++ toString found ++ ")"))]

/-- **The report of an analysis** as a JSON document, or a note on one line if there are too few
instructions. -/
def render (options : Options) (a : Analysis) : String :=
  let instructions := a.disassembly.instructions.toList
  if isTooShort options instructions then (shortage options instructions.length).compact
  else
    let counted := count options instructions
    let total := instructions.length - options.n + 1
    (Json.object [("include_operands", .bool options.includeOperands), ("n", .nat options.n),
      ("ngrams", .array (counted.map (entry total))),
      ("total_instructions", .nat instructions.length),
      ("unique_ngrams", .nat counted.length)]).pretty

end BytecodeFlow.Report.Ngram
