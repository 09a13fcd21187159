import BytecodeFlow.Disassembly.Basic
import Std.Data.HashMap

/-!
# An index of an instruction list

The index answers where an offset stands in a list of instructions, which offsets are jump
destinations, and where every jump goes.  The list need not ascend, and may hold an offset more
than once: the last position of an offset counts.

* `Destination` — what is known about where a jump goes.
* `JumpSite` — a jump of the list with its destination.
* `CodeIndex`, `CodeIndex.ofInstructions` — the index of a list.
-/

namespace BytecodeFlow

/-- What is known about where a jump goes. -/
inductive Destination where
  /-- The target is not written next to the jump. -/
  | dynamic
  /-- The target is known, and is the offset of no instruction. -/
  | dangling (target : Nat)
  /-- The target is known and is the offset of an instruction, which the machine accepts as a
  target only if it is a jump destination. -/
  | resolved (target : Nat) (valid : Bool)
deriving DecidableEq, Repr

namespace Destination

/-- The offset that the jump is known to go to. -/
def target? : Destination → Option Nat
  | .dynamic => none
  | .dangling target => some target
  | .resolved target _ => some target

/-- Whether the target is the offset of an instruction. -/
def isResolved : Destination → Bool
  | .resolved _ _ => true
  | _ => false

/-- Whether the target is a jump destination. -/
def isValid : Destination → Bool
  | .resolved _ valid => valid
  | _ => false

/-- Whether the target is known and is the offset of no instruction. -/
def isDangling : Destination → Bool
  | .dangling _ => true
  | _ => false

/-- Whether the target is unknown. -/
def isDynamic : Destination → Bool
  | .dynamic => true
  | _ => false

end Destination

/-- A jump, and where it goes. -/
structure JumpSite where
  offset : Nat
  opcode : Opcode
  destination : Destination
deriving DecidableEq, Repr

/-- The index of an instruction list. -/
structure CodeIndex where
  instructions : Array Instruction
  /-- The last position of every offset of the list. -/
  positions : Std.HashMap Nat Nat
  /-- The offsets of the jump destinations, in the order of the list. -/
  jumpdests : Array Nat
  /-- The jumps, in the order of the list. -/
  jumps : List JumpSite

namespace CodeIndex

/-- The last position of every offset of a list. -/
def lastPositions (instructions : Array Instruction) : Std.HashMap Nat Nat :=
  instructions.toList.zipIdx.foldl (fun positions entry => positions.insert entry.1.offset entry.2)
    ∅

/-- Where the jump at a position of the list goes. -/
def destination (instructions : Array Instruction) (positions : Std.HashMap Nat Nat)
    (jump : Instruction) (position : Nat) : Destination :=
  match jump.jumpTarget? (before? instructions position) with
  | none => .dynamic
  | some target =>
    match positions[target]? with
    | none => .dangling target
    | some found => .resolved target ((instructions[found]?).any (·.opcode.isJumpdest))

/-- **The index of an instruction list.** -/
def ofInstructions (instructions : Array Instruction) : CodeIndex :=
  let positions := lastPositions instructions
  { instructions
    positions
    jumpdests := (instructions.filter (·.opcode.isJumpdest)).map (·.offset)
    jumps := (instructions.toList.zipIdx.filter (·.1.opcode.isJump)).map fun entry =>
      ⟨entry.1.offset, entry.1.opcode, destination instructions positions entry.1 entry.2⟩ }

/-- The number of different offsets. -/
def size (index : CodeIndex) : Nat :=
  index.positions.size

/-- The last position of an offset. -/
def position? (index : CodeIndex) (offset : Nat) : Option Nat :=
  index.positions[offset]?

/-- Whether an instruction has a given offset. -/
def contains (index : CodeIndex) (offset : Nat) : Bool :=
  index.positions.contains offset

/-- The offsets of the instructions with a given opcode, in the order of the list. -/
def offsetsOf (index : CodeIndex) (op : Opcode) : List Nat :=
  (index.instructions.toList.filter fun i => i.opcode = op).map (·.offset)

/-- Whether a jump destination has a given offset, in a list that ascends. -/
def isJumpdest (index : CodeIndex) (offset : Nat) : Bool :=
  (Search.position? index.jumpdests id offset).isSome

/-- The jumps whose target is known and names no instruction. -/
def danglingJumps (index : CodeIndex) : List JumpSite :=
  index.jumps.filter (·.destination.isDangling)

/-- The jumps whose target is unknown. -/
def dynamicJumps (index : CodeIndex) : List JumpSite :=
  index.jumps.filter (·.destination.isDynamic)

end CodeIndex

end BytecodeFlow
