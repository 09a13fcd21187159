import BytecodeFlow.Analysis
import BytecodeFlow.Json.Basic

/-!
# The report as JSON

* `Report.Document.render` — one document, indented, with its members in a fixed order.
* `Report.Lines.render` — one record on each line, with the members of a record in alphabetical
  order: a summary, and then a record for every instruction, block, loop and path.

Offsets are written in hexadecimal behind `0x`.  The two reports share the members of an
instruction, a block and a loop.
-/

namespace BytecodeFlow.Report

/-- The member that tells the kind of a record. -/
def kind (name : String) : String × Json :=
  ("type", .string name)

/-- An offset as a value. -/
def offsetJson (offset : Nat) : Json :=
  .string (Text.hexOffset offset)

/-- Offsets as a value. -/
def offsetsJson (offsets : List Nat) : Json :=
  .array (offsets.map offsetJson)

/-- The offsets of nodes as a value. -/
def nodesJson (g : Graph) (nodes : List Nat) : Json :=
  offsetsJson (nodes.map g.offsetD)

/-- The family of an instruction, which an unassigned opcode does not have. -/
def categoryMember (i : Instruction) : List (String × Json) :=
  if i.opcode.isDefined then [("category", .string i.opcode.category.text)] else []

/-- The members of an instruction other than its family. -/
def instructionMembers (i : Instruction) : List (String × Json) :=
  [("offset", offsetJson i.offset), ("opcode", .string i.opcode.text),
    ("operand", .string i.operandHex), ("size", .nat i.size)]

namespace Document

/-- An instruction as a value. -/
def instruction (i : Instruction) : Json :=
  .object (instructionMembers i ++ categoryMember i)

/-- A block as a value. -/
def block (g : Graph) (b : Block) : Json :=
  .object [("start", offsetJson b.start), ("instructions", nodesJson g b.nodes),
    ("successors", offsetsJson b.successors)]

/-- A loop as a value. -/
def loop (g : Graph) (l : Loop) : Json :=
  .object [("header", offsetJson (g.offsetD l.header)),
    ("exit", Json.stringOrNull (l.exit.map fun id => Text.hexOffset (g.offsetD id))),
    ("nodes", nodesJson g l.nodes), ("bounds", offsetsJson l.bounds),
    ("invariants", Json.strings l.invariants)]

/-- The paths as a value. -/
def paths (flow : Option Flow) (found : PathSet) : Json :=
  let listed := match flow with
    | some flow => found.paths.toList.map (nodesJson flow.graph)
    | none => []
  .object [("count", .nat found.paths.size), ("truncated", .bool found.truncated),
    ("paths", .array listed)]

/-- What is read off the graph: exits, and after the jumps that lead nowhere, blocks and loops. -/
def flowMembers (a : Analysis) : List (String × Json) :=
  let dangling := offsetsJson (a.index.danglingJumps.map (·.offset))
  match a.flow with
  | some flow =>
    [("exits", nodesJson flow.graph flow.graph.exits), ("dangling_jumps", dangling),
      ("blocks", .array (flow.blocks.map (block flow.graph))),
      ("loops", .array (flow.loops.map (loop flow.graph)))]
  | none =>
    [("exits", .array []), ("dangling_jumps", dangling), ("blocks", .array []),
      ("loops", .array [])]

/-- The whole analysis as a value.  The paths are left out if they were not asked for. -/
def value (a : Analysis) : Json :=
  .object ([("strategy", .string a.strategy.title),
      ("undecoded_bytes", .nat a.disassembly.undecoded),
      ("instructions", .array (a.disassembly.instructions.toList.map instruction))]
    ++ flowMembers a
    ++ match a.paths with
      | some found => [("paths", paths a.flow found)]
      | none => [])

/-- **The report of an analysis** as one JSON document. -/
def render (a : Analysis) : String :=
  (value a).pretty

end Document

namespace Lines

/-- The record that counts what the other records list. -/
def summary (a : Analysis) : Json :=
  .object [("blocks", .nat a.blocks.length),
    ("instructions", .nat a.disassembly.instructions.size), ("loops", .nat a.loops.length),
    ("paths", match a.paths with
      | some found => .nat found.paths.size
      | none => .null),
    ("strategy", .string a.strategy.title), kind "summary",
    ("undecoded_bytes", .nat a.disassembly.undecoded)]

/-- The record of an instruction. -/
def instruction (i : Instruction) : Json :=
  .object (categoryMember i ++ instructionMembers i ++ [kind "instruction"])

/-- The record of a block. -/
def block (g : Graph) (b : Block) : Json :=
  .object [("instructions", nodesJson g b.nodes), ("start", offsetJson b.start),
    ("successors", offsetsJson b.successors), kind "block"]

/-- The record of a loop. -/
def loop (g : Graph) (l : Loop) : Json :=
  .object [("bounds", offsetsJson l.bounds),
    ("exit", Json.stringOrNull (l.exit.map fun id => Text.hexOffset (g.offsetD id))),
    ("header", offsetJson (g.offsetD l.header)), ("invariants", Json.strings l.invariants),
    ("nodes", nodesJson g l.nodes), kind "loop"]

/-- The record of a path. -/
def path (g : Graph) (entry : List Nat × Nat) : Json :=
  .object [("index", .nat entry.2), ("nodes", nodesJson g entry.1), kind "path"]

/-- The records that need the graph. -/
def flowRecords (flow : Flow) (paths : Option PathSet) : List Json :=
  flow.blocks.map (block flow.graph) ++ flow.loops.map (loop flow.graph)
    ++ match paths with
      | some found => found.paths.toList.zipIdx.map (path flow.graph)
      | none => []

/-- All records, in order. -/
def records (a : Analysis) : List Json :=
  summary a :: a.disassembly.instructions.toList.map instruction
    ++ match a.flow with
      | some flow => flowRecords flow a.paths
      | none => []

/-- **The report of an analysis** as JSON Lines: every record on a line of its own. -/
def render (a : Analysis) : String :=
  String.join ((records a).map fun record => record.compact ++ "\n")

end Lines

end BytecodeFlow.Report
