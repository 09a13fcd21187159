import BytecodeFlow.Analysis

/-!
# The report as a table

The table has a row of comma-separated fields for every instruction, under a row with the names of
the fields.  No field can hold a comma, a quotation mark or a line break, so none is quoted.  An
analysis without instructions has no rows at all, not even the one with the names.
-/

namespace BytecodeFlow.Report.Table

/-- The names of the fields. -/
def header : List String :=
  ["offset", "block", "opcode", "operand", "size", "category", "in_loop", "is_exit"]

/-- The start of the block that each node is in. -/
def blockStarts (blocks : List Block) : Std.HashMap Nat Nat :=
  blocks.foldl (fun starts b => b.nodes.foldl (fun starts id => starts.insert id b.start) starts) ∅

/-- The header of the first loop that each node is in. -/
def loopHeaders (loops : List Loop) : Std.HashMap Nat Nat :=
  loops.foldl
    (fun headers l => l.nodes.foldl (fun headers id => headers.insertIfNew id l.header) headers) ∅

/-- An offset, or an empty field where there is none. -/
def offsetField : Option Nat → String
  | some offset => Text.hexOffset offset
  | none => ""

/-- The row of the instruction at a position, which is the number of its node. -/
def row (flow : Option Flow) (starts headers : Std.HashMap Nat Nat) (entry : Instruction × Nat) :
    List String :=
  let (i, id) := entry
  [Text.hexOffset i.offset, offsetField starts[id]?, i.opcode.text, i.operandHex, toString i.size,
    i.opcode.category.text,
    offsetField (flow.bind fun f => (headers[id]?).map f.graph.offsetD),
    if flow.any (·.graph.isExit id) then "true" else "false"]

/-- The rows of an analysis. -/
def rows (a : Analysis) : List (List String) :=
  let starts := blockStarts a.blocks
  let headers := loopHeaders a.loops
  a.disassembly.instructions.toList.zipIdx.map (row a.flow starts headers)

/-- A row as a line. -/
def line (fields : List String) : String :=
  String.intercalate "," fields ++ "\n"

/-- **The report of an analysis** as comma-separated values. -/
def render (a : Analysis) : String :=
  let listed := rows a
  if listed.isEmpty then "" else String.join ((header :: listed).map line)

end BytecodeFlow.Report.Table
