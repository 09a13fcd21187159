import BytecodeFlow.Analysis

/-!
# The report for reading

The report lists the code block by block, and then the jumps that lead nowhere, the loops and the
paths.  Sections whose subject was not asked for, or is empty, are left out.
-/

namespace BytecodeFlow.Report.Listing

/-- A position in the code, six digits wide. -/
def place (offset : Nat) : String :=
  "0x" ++ Text.hexPadded 6 offset

/-- Positions in the code, one after the other. -/
def places (offsets : List Nat) : String :=
  String.intercalate ", " (offsets.map place)

/-- The first lines: how the code was read, and how much of it. -/
def heading (a : Analysis) : String :=
  a.strategy.title ++ ": " ++ toString a.disassembly.instructions.size ++ " instructions, "
    ++ toString a.disassembly.undecoded ++ " bytes undecoded\n\n"

/-- The line of a node, with a mark behind an exit. -/
def line (g : Graph) (id : Nat) : String :=
  "  " ++ ((g.instruction? id).map Instruction.text).getD ""
    ++ (if g.isExit id then "  ; exit" else "") ++ "\n"

/-- The lines of a block. -/
def block (g : Graph) (b : Block) : String :=
  "Block at " ++ place b.start ++ ":\n" ++ String.join (b.nodes.map (line g))
    ++ (if b.successors.isEmpty then "  No successors\n"
      else "  Successors: " ++ places b.successors ++ "\n")
    ++ "\n"

/-- The line of the jumps that lead nowhere, if there are any. -/
def dangling (a : Analysis) : String :=
  let offsets := a.index.danglingJumps.map (·.offset)
  if offsets.isEmpty then "" else "Dangling jumps: " ++ places offsets ++ "\n\n"

/-- The line of a loop. -/
def loop (g : Graph) (l : Loop) : String :=
  "  header " ++ place (g.offsetD l.header) ++ ", " ++ toString l.nodes.length ++ " nodes, exit "
    ++ ((l.exit.map fun id => place (g.offsetD id)).getD "none")
    ++ (if l.bounds.isEmpty then "" else ", bounds [" ++ places l.bounds ++ "]")
    ++ (if l.invariants.isEmpty then ""
      else ", invariants [" ++ String.intercalate ", " l.invariants ++ "]")
    ++ "\n"

/-- The lines of the loops. -/
def loops (flow : Flow) : String :=
  "Loops: " ++ toString flow.loops.length ++ "\n" ++ String.join (flow.loops.map (loop flow.graph))

/-- The line of a path. -/
def path (g : Graph) (nodes : List Nat) : String :=
  "  " ++ String.intercalate " -> " (nodes.map fun id => Text.hexOffset (g.offsetD id)) ++ "\n"

/-- The lines of the paths, if they were asked for. -/
def paths (g : Graph) : Option PathSet → String
  | none => ""
  | some found =>
    "\nPaths: " ++ toString found.paths.size ++ (if found.truncated then " (truncated)" else "")
      ++ "\n" ++ String.join (found.paths.toList.map (path g))

/-- **The report of an analysis**, as plain text. -/
def render (a : Analysis) : String :=
  heading a ++
    match a.flow with
    | none => "No instructions decoded\n"
    | some flow =>
      String.join (flow.blocks.map (block flow.graph)) ++ dangling a ++ loops flow
        ++ paths flow.graph a.paths

end BytecodeFlow.Report.Listing
