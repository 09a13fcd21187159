import BytecodeFlow.CodeIndex
import BytecodeFlow.Graph.Block
import BytecodeFlow.Graph.Path

/-!
# Analysing an image

The analysis of an image reads it, builds the control-flow graph of its instructions, and finds
the blocks, loops and paths of the graph.

* `Analysis.Options` — how to read the image, and whether and how far to search for paths.
* `Flow`, `Analysis` — what an analysis finds.  An image need not hold a single instruction, and
  then there is no graph.
* `analyze` — the analysis of one image; `analyzeAll` that of several, which do not affect each
  other.
-/

namespace BytecodeFlow

/-- The graph of an image with its blocks and loops. -/
structure Flow where
  graph : Graph
  blocks : List Block
  loops : List Loop
deriving DecidableEq, Repr

/-- Something worth telling about an image that is no failure. -/
inductive Warning where
  /-- An instruction was given up because it overlaps one read earlier. -/
  | overlap (i : Instruction)
  /-- No instruction was read from this many bytes. -/
  | nothingDecoded (bytes : Nat)
deriving DecidableEq, Repr

/-- The wording of a warning. -/
def Warning.message : Warning → String
  | .overlap i =>
    i.opcode.text ++ " at " ++ Text.hexOffset i.offset
      ++ " overlaps previously decoded code, stopping this run"
  | .nothingDecoded bytes => "No instructions decoded from " ++ toString bytes ++ " bytes"

/-- How to analyse an image. -/
structure Analysis.Options where
  strategy : Strategy
  /-- Whether to search for paths. -/
  enumeratePaths : Bool
  limits : Limits
deriving DecidableEq, Repr

/-- The limits that apply unless others are given. -/
def Limits.standard : Limits := ⟨some 10000, some 1000000⟩

/-- The options that apply unless others are given. -/
def Analysis.Options.standard : Analysis.Options := ⟨.linear, true, .standard⟩

/-- What the analysis of an image finds. -/
structure Analysis where
  strategy : Strategy
  disassembly : Disassembly
  index : CodeIndex
  /-- The graph, unless there is no instruction to build it from. -/
  flow : Option Flow
  /-- The paths, if they were asked for. -/
  paths : Option PathSet
  warnings : List Warning

namespace Analysis

/-- The blocks of the graph; without a graph there are none. -/
def blocks (a : Analysis) : List Block :=
  (a.flow.map Flow.blocks).getD []

/-- The loops of the graph; without a graph there are none. -/
def loops (a : Analysis) : List Loop :=
  (a.flow.map Flow.loops).getD []

/-- The number of bytes of the image, covered by instructions or not. -/
def inputLength (a : Analysis) : Nat :=
  a.disassembly.decodedBytes + a.disassembly.undecoded

end Analysis

/-- The graph of a list of instructions with its blocks and loops. -/
def Flow.ofInstructions (instructions : Array Instruction) : Except Error Flow := do
  let graph ← Graph.build instructions
  return ⟨graph, ← graph.blocks, ← graph.loops⟩

/-- **The analysis of an image.**  Code that is cut short, jumps that lead nowhere and parts that
nothing reaches are no failures: they show in the result. -/
def analyze (image : Image) (options : Analysis.Options) : Except Error Analysis := do
  let reading ← options.strategy.read image
  let instructions := reading.disassembly.instructions
  let index := CodeIndex.ofInstructions instructions
  let overlaps := reading.refused.map Warning.overlap
  if instructions.isEmpty then
    return { strategy := options.strategy
             disassembly := reading.disassembly
             index := index
             flow := none
             paths := if options.enumeratePaths then some .empty else none
             warnings := overlaps ++ [.nothingDecoded image.size] }
  let flow ← Flow.ofInstructions instructions
  let paths ←
    if options.enumeratePaths then some <$> flow.graph.paths flow.loops options.limits
    else pure none
  return { strategy := options.strategy
           disassembly := reading.disassembly
           index := index
           flow := some flow
           paths := paths
           warnings := overlaps }

/-- The analyses of several images, in order; the failure of one does not affect the others. -/
def analyzeAll (images : List Image) (options : Analysis.Options) : List (Except Error Analysis) :=
  images.map fun image => analyze image options

end BytecodeFlow
