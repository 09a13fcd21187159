import BytecodeFlow.Graph.Basic
import BytecodeFlow.Json.Mismatch

/-!
# Disassemblies as JSON values

* `Instruction.toJson`, `Disassembly.toJson` — the value that stands for an instruction or a
  disassembly.
* `Json.instruction`, `Json.disassembly` — the readings in the other direction, which accept more
  than what is written: opcodes under any of their names, digits of either case, members in any
  order and with others among them, and records as arrays.
* `Json.strategy`, `Json.edgeKind` — a strategy or a slot by its name.
-/

namespace BytecodeFlow

/-! ## Writing -/

/-- An instruction as a value. -/
def Instruction.toJson (i : Instruction) : Json :=
  .object [("offset", .nat i.offset), ("opcode", .string i.opcode.text),
    ("operand", .string i.operandHex)]

/-- A disassembly as a value. -/
def Disassembly.toJson (d : Disassembly) : Json :=
  .object [("instructions", .array (d.instructions.toList.map Instruction.toJson)),
    ("undecoded", .nat d.undecoded)]

/-! ## Reading -/

namespace Json

/-- The fields of an instruction. -/
def instructionRecord : Record := ⟨"Instruction", ["offset", "opcode", "operand"]⟩

/-- **Reads an instruction.** -/
def instruction : Reader Instruction
  | .object members => do
    let offset? ← optional members "offset" offset
    let opcode? ← optional members "opcode" opcode
    let operand? ← optional members "operand" bytes
    return ⟨← required "offset" offset?, ← required "opcode" opcode?,
      ← required "operand" operand?⟩
  | .array items => do
    let i : Instruction := ⟨← positional instructionRecord items 0 offset,
      ← positional instructionRecord items 1 opcode,
      ← positional instructionRecord items 2 bytes⟩
    noMore instructionRecord items
    return i
  | found => refuse found "struct Instruction"

/-- Reads a list of instructions. -/
def instructions : Reader (Array Instruction) := fun value => do
  return (← sequence instruction value).toArray

/-- The fields of a disassembly. -/
def disassemblyRecord : Record := ⟨"Disassembly", ["instructions", "undecoded"]⟩

/-- **Reads a disassembly.** -/
def disassembly : Reader Disassembly
  | .object members => do
    let instructions? ← optional members "instructions" instructions
    let undecoded? ← optional members "undecoded" offset
    return ⟨← required "instructions" instructions?, ← required "undecoded" undecoded?⟩
  | .array items => do
    let d : Disassembly := ⟨← positional disassemblyRecord items 0 instructions,
      ← positional disassemblyRecord items 1 offset⟩
    noMore disassemblyRecord items
    return d
  | found => refuse found "struct Disassembly"

/-- Reads a strategy. -/
def strategy : Reader Strategy :=
  variant Strategy.byName

/-- Reads an edge slot. -/
def edgeKind : Reader EdgeKind :=
  variant EdgeKind.byName

end Json

/-- A reading whose failure is a failure of the program. -/
def Json.read {α : Type} (reader : Json.Reader α) (value : Json) : Except Error α :=
  (reader value).mapError .serialization

end BytecodeFlow
