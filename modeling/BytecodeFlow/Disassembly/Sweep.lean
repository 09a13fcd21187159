import BytecodeFlow.Disassembly.Basic
import BytecodeFlow.Error

/-!
# Linear sweep

The sweep reads one instruction after the other from the front of the image.  Operands are taken
whole, so a byte inside an operand is never read as an opcode.  It stops at the first byte that
starts no instruction, which can only be a push that is cut short by the end of the image; the
bytes from there on are left undecoded.
-/

namespace BytecodeFlow.Disassembly

/-- The instructions from an offset on, and the number of bytes left behind the last of them. -/
def sweepFrom (image : Image) (offset : Nat) : List Instruction × Nat :=
  match h : decodeAt? image offset with
  | some i =>
    have := lt_size_of_decodeAt? h
    have := lt_finish_of_decodeAt? h
    let (rest, left) := sweepFrom image i.finish
    (i :: rest, left)
  | none => ([], image.size - offset)
termination_by image.size - offset

/-- **The linear sweep of an image**, which fails only if there is nothing to read. -/
def sweep (image : Image) : Except Error Disassembly :=
  if image.isEmpty then .error .emptyInput
  else
    let (instructions, left) := sweepFrom image 0
    .ok ⟨instructions.toArray, left⟩

end BytecodeFlow.Disassembly
