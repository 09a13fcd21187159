import BytecodeFlow.Instruction
import BytecodeFlow.Search

/-!
# Disassemblies

A disassembly is the list of instructions read from a code image, together with the number of
bytes that none of them covers.  The two ways to obtain one are in `Disassembly.Sweep` and
`Disassembly.Descent`; this module asks questions of the result.

* `position?`, `atOffset?` — where the instruction at an offset stands in the list.
* `withOpcode`, `count`, `controlFlow` — instructions singled out by their opcode.
* `callsSignature` — whether a call carries a given four-byte signature.
-/

namespace BytecodeFlow

/-- The instructions read from a code image. -/
structure Disassembly where
  instructions : Array Instruction
  /-- The number of bytes of the image that no instruction covers. -/
  undecoded : Nat
deriving DecidableEq, Repr

/-- A function signature as it is compared: trimmed, without its mark, in lower case. -/
def normalSignature (signature : String) : String :=
  String.ofList ((Hex.dropMark (Text.trim signature.toList)).map Char.toLower)

/-- **Whether some call carries a signature**: whether the operand of a call instruction begins
with the four bytes that the signature writes.  The test compares texts, so a signature that does
not write four bytes matches nothing. -/
def callsSignature (instructions : Array Instruction) (signature : String) : Bool :=
  let wanted := normalSignature signature
  instructions.any fun i =>
    i.opcode = Opcode.call && 4 ≤ i.operand.length && Hex.encode (i.operand.take 4) = wanted

namespace Disassembly

/-- The number of bytes that the instructions cover. -/
def decodedBytes (d : Disassembly) : Nat :=
  coveredBytes d.instructions.toList

/-- The position in the list of the instruction at an offset. -/
def position? (d : Disassembly) (offset : Nat) : Option Nat :=
  Search.position? d.instructions Instruction.offset offset

/-- The instruction at an offset. -/
def atOffset? (d : Disassembly) (offset : Nat) : Option Instruction :=
  (d.position? offset).bind fun position => d.instructions[position]?

/-- The instructions with a given opcode, in order. -/
def withOpcode (d : Disassembly) (op : Opcode) : List Instruction :=
  d.instructions.toList.filter fun i => i.opcode = op

/-- How many instructions have a given opcode. -/
def count (d : Disassembly) (op : Opcode) : Nat :=
  (d.withOpcode op).length

/-- Whether the code can remove its own contract. -/
def hasSelfdestruct (d : Disassembly) : Bool :=
  0 < d.count Opcode.selfdestruct

/-- The instructions that shape control flow, in order. -/
def controlFlow (d : Disassembly) : List Instruction :=
  d.instructions.toList.filter fun i => i.opcode.isControlFlow

end Disassembly

end BytecodeFlow
