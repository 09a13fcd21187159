import BytecodeFlow.Opcode.Mnemonic

/-!
# Families of opcodes and what they do to the stack

* `Category`, `category` — the family of an opcode, after the layout of the opcode space.
* `StackEffect`, `stackEffect?` — how many items an opcode takes from the stack and puts back.
* `halts` — whether execution can go on to the following byte.
-/

namespace BytecodeFlow.Opcode

/-! ## Halting -/

/-- Whether execution never goes on to the following byte.  Unassigned bytes halt, and so does an
unconditional jump. -/
def halts (op : Opcode) : Bool :=
  op.isTerminal || op = stop || op = invalid || op = jump || !op.isDefined

/-! ## Families -/

/-- A family of opcodes. -/
inductive Category where
  | arithmetic
  | comparison
  | keccak
  | environment
  | block
  | stackMemoryStorage
  | flow
  | push
  | dup
  | swap
  | log
  | system
  | invalid
  | unknown
deriving DecidableEq, Repr

/-- The name of a family in the reports. -/
def Category.text : Category → String
  | .arithmetic => "arithmetic"
  | .comparison => "comparison"
  | .keccak => "keccak"
  | .environment => "environment"
  | .block => "block"
  | .stackMemoryStorage => "stack_memory_storage"
  | .flow => "flow"
  | .push => "push"
  | .dup => "dup"
  | .swap => "swap"
  | .log => "log"
  | .system => "system"
  | .invalid => "invalid"
  | .unknown => "unknown"

/-- The family of an opcode.  The jumps and what belongs to them lie inside the range of the
stack, memory and storage opcodes and form a family of their own. -/
def category (op : Opcode) : Category :=
  let b := op.byte.toNat
  if !op.isDefined then .unknown
  else if b ≤ 0x0b then .arithmetic
  else if b ≤ 0x1d then .comparison
  else if b = 0x20 then .keccak
  else if b ≤ 0x3f then .environment
  else if b ≤ 0x4a then .block
  else if op.isJump || b = 0x58 || op.isJumpdest then .flow
  else if b ≤ 0x5e then .stackMemoryStorage
  else if b ≤ 0x7f then .push
  else if b ≤ 0x8f then .dup
  else if b ≤ 0x9f then .swap
  else if b ≤ 0xa4 then .log
  else if op = Opcode.invalid then .invalid
  else .system

/-! ## Stack behaviour -/

/-- How many items an instruction takes from the stack, and how many it puts there. -/
structure StackEffect where
  pops : Nat
  pushes : Nat
deriving DecidableEq, Repr

/-- The change in the height of the stack. -/
def StackEffect.delta (effect : StackEffect) : Int :=
  (effect.pushes : Int) - effect.pops

/-- The stack behaviour of an opcode, `none` for an unassigned byte. -/
def stackEffect? (op : Opcode) : Option StackEffect :=
  let b := op.byte.toNat
  if b ∈ [0x00, 0x5b, 0xfe] then some ⟨0, 0⟩
  else if b ∈ [0x08, 0x09] then some ⟨3, 1⟩
  else if b ≤ 0x0b then some ⟨2, 1⟩
  else if b ∈ [0x15, 0x19] then some ⟨1, 1⟩
  else if 0x10 ≤ b ∧ b ≤ 0x1d then some ⟨2, 1⟩
  else if b = 0x20 then some ⟨2, 1⟩
  else if b ∈ [0x31, 0x35, 0x3b, 0x3f] then some ⟨1, 1⟩
  else if b ∈ [0x37, 0x39, 0x3e] then some ⟨3, 0⟩
  else if b = 0x3c then some ⟨4, 0⟩
  else if 0x30 ≤ b ∧ b ≤ 0x3f then some ⟨0, 1⟩
  else if b ∈ [0x40, 0x49] then some ⟨1, 1⟩
  else if 0x41 ≤ b ∧ b ≤ 0x4a then some ⟨0, 1⟩
  else if b = 0x50 then some ⟨1, 0⟩
  else if b ∈ [0x51, 0x54, 0x5c] then some ⟨1, 1⟩
  else if b ∈ [0x52, 0x53, 0x55, 0x5d] then some ⟨2, 0⟩
  else if b = 0x56 then some ⟨1, 0⟩
  else if b = 0x57 then some ⟨2, 0⟩
  else if b ∈ [0x58, 0x59, 0x5a] then some ⟨0, 1⟩
  else if b = 0x5e then some ⟨3, 0⟩
  else if 0x5f ≤ b ∧ b ≤ 0x7f then some ⟨0, 1⟩
  else if 0x80 ≤ b ∧ b ≤ 0x8f then some ⟨b - 0x7f, b - 0x7f + 1⟩
  else if 0x90 ≤ b ∧ b ≤ 0x9f then some ⟨b - 0x8e, b - 0x8e⟩
  else if 0xa0 ≤ b ∧ b ≤ 0xa4 then some ⟨b - 0xa0 + 2, 0⟩
  else if b = 0xf0 then some ⟨3, 1⟩
  else if b ∈ [0xf1, 0xf2] then some ⟨7, 1⟩
  else if b ∈ [0xf3, 0xfd] then some ⟨2, 0⟩
  else if b ∈ [0xf4, 0xfa] then some ⟨6, 1⟩
  else if b = 0xf5 then some ⟨4, 1⟩
  else if b = 0xff then some ⟨1, 0⟩
  else none

end BytecodeFlow.Opcode
