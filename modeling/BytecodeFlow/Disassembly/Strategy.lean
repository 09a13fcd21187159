import BytecodeFlow.Disassembly.Descent
import BytecodeFlow.Disassembly.Sweep

/-!
# The two ways to read an image

`Strategy.read` runs the sweep or the descent and gives their results one type.
-/

namespace BytecodeFlow

/-- How an image is read. -/
inductive Strategy where
  /-- From front to back. -/
  | linear
  /-- Along control flow. -/
  | recursive
deriving DecidableEq, Repr

namespace Strategy

/-- All strategies, the default one first. -/
def all : List Strategy := [.linear, .recursive]

/-- The name by which a strategy is chosen. -/
def name : Strategy → String
  | .linear => "linear"
  | .recursive => "recursive"

/-- The name of a strategy in the reports. -/
def title : Strategy → String
  | .linear => "Linear sweep"
  | .recursive => "Recursive descent"

/-- The strategies by their names. -/
def byName : List (String × Strategy) :=
  all.map fun s => (s.name, s)

/-- An image read by a strategy.  The sweep never gives an instruction up. -/
def read (s : Strategy) (image : Image) : Except Error Disassembly.Reading :=
  match s with
  | .linear => do return ⟨← Disassembly.sweep image, []⟩
  | .recursive => Disassembly.descend image

/-- The disassembly of an image by a strategy. -/
def disassemble (s : Strategy) (image : Image) : Except Error Disassembly := do
  return (← s.read image).disassembly

end Strategy

end BytecodeFlow
