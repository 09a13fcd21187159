/-!
# Opcodes

An opcode is one byte of bytecode.  All 256 bytes are opcodes: deployed code legally carries
bytes that no instruction is assigned to, behind code that reverts and inside data.

This module holds the type, the opcodes that the analysis singles out by name, and the questions
about control flow that need nothing but the byte.  Names are in `Opcode.Mnemonic`, families and
stack behaviour in `Opcode.Family`.
-/

namespace BytecodeFlow

/-- One instruction byte. -/
structure Opcode where
  /-- The raw byte. -/
  byte : UInt8
deriving DecidableEq, Repr

namespace Opcode

/-! ## Opcodes with a role of their own -/

/-- Ends execution successfully without output. -/
def stop : Opcode := ⟨0x00⟩
/-- Adds the two topmost items. -/
def add : Opcode := ⟨0x01⟩
/-- Jumps to the topmost item. -/
def jump : Opcode := ⟨0x56⟩
/-- Jumps to the topmost item if the one below it is not zero. -/
def jumpi : Opcode := ⟨0x57⟩
/-- The only opcode that a jump may land on. -/
def jumpdest : Opcode := ⟨0x5b⟩
/-- Pushes zero, and so needs no operand. -/
def push0 : Opcode := ⟨0x5f⟩
/-- Calls another contract. -/
def call : Opcode := ⟨0xf1⟩
/-- Runs the code of another contract on its own storage. -/
def callcode : Opcode := ⟨0xf2⟩
/-- Ends execution successfully with output. -/
def ret : Opcode := ⟨0xf3⟩
/-- Runs the code of another contract on behalf of the caller. -/
def delegatecall : Opcode := ⟨0xf4⟩
/-- Calls another contract without letting it change state. -/
def staticcall : Opcode := ⟨0xfa⟩
/-- Ends execution and undoes its effects. -/
def revert : Opcode := ⟨0xfd⟩
/-- The byte set aside to be no instruction. -/
def invalid : Opcode := ⟨0xfe⟩
/-- Ends execution and removes the contract. -/
def selfdestruct : Opcode := ⟨0xff⟩

/-! ## Roles in control flow -/

/-- Whether the opcode pushes a literal that follows it in the code.  Pushing zero takes no
literal and is left out. -/
def isPush (op : Opcode) : Bool :=
  0x60 ≤ op.byte && op.byte ≤ 0x7f

/-- The number of literal bytes that follow the opcode: one to thirty-two after a push, none
after anything else. -/
def operandSize (op : Opcode) : Nat :=
  if op.isPush then op.byte.toNat - 0x5f else 0

/-- A jump, conditional or not. -/
def isJump (op : Opcode) : Bool :=
  op = jump || op = jumpi

/-- One of the four opcodes that run another contract and then go on. -/
def isCall (op : Opcode) : Bool :=
  op = call || op = callcode || op = delegatecall || op = staticcall

/-- One of the three opcodes that leave the contract for good. -/
def isTerminal (op : Opcode) : Bool :=
  op = ret || op = revert || op = selfdestruct

/-- Whether a jump may land here. -/
def isJumpdest (op : Opcode) : Bool :=
  op = jumpdest

/-- Whether the opcode shapes control flow: it jumps, is jumped to, or leaves the contract. -/
def isControlFlow (op : Opcode) : Bool :=
  op.isJump || op.isJumpdest || op.isTerminal

end Opcode

end BytecodeFlow
