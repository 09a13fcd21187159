import BytecodeFlow.Hex
import BytecodeFlow.Opcode.Family

/-!
# Instructions

An instruction is an opcode at an offset of the code, with the literal bytes that belong to it.

* `Instruction.size`, `finish` — the bytes it covers: its own offset up to, but not including,
  `finish`.
* `bigEndian?` — the number that literal bytes write, if it is a 64-bit offset.
* `literal?`, `jumpTarget?` — the literal an instruction works with, which for a jump is pushed
  by the instruction just before it.
* `before?` — the instruction just before a position of a list.
* `decodeAt?` — the instruction at an offset of a code image.
-/

namespace BytecodeFlow

/-- Code as it is deployed: a sequence of bytes. -/
abbrev Image := Array UInt8

/-- One instruction of the code. -/
structure Instruction where
  /-- The position of the opcode byte. -/
  offset : Nat
  opcode : Opcode
  /-- The literal bytes that follow the opcode. -/
  operand : List UInt8
deriving DecidableEq, Repr

/-! ## Literals -/

/-- The number that bytes write, most significant byte first, in a word of 64 bits: every byte moves
the ones before it up by eight bits. -/
def bigEndianWord (bytes : List UInt8) : UInt64 :=
  bytes.foldl (fun word byte => word <<< 8 ||| byte.toUInt64) 0

/-- **The offset that bytes write**, most significant byte first.  No bytes write no offset, and
neither do bytes with more than eight significant ones. -/
def bigEndian? (bytes : List UInt8) : Option Nat :=
  let significant := bytes.dropWhile (· = 0)
  if bytes.isEmpty then none
  else if 8 < significant.length then none
  else some (bigEndianWord significant).toNat

namespace Instruction

/-- The number of bytes the instruction covers: the opcode and its operand. -/
def size (i : Instruction) : Nat :=
  1 + i.operand.length

/-- The offset of the first byte after the instruction. -/
def finish (i : Instruction) : Nat :=
  i.offset + i.size

/-- The operand as an offset. -/
def operandValue? (i : Instruction) : Option Nat :=
  bigEndian? i.operand

/-- The operand in hexadecimal. -/
def operandHex (i : Instruction) : String :=
  Hex.encode i.operand

/-- The instruction as a line of a listing: offset, name, and the operand if there is one. -/
def text (i : Instruction) : String :=
  Text.hexPadded 6 i.offset ++ "  " ++
    if i.operand.isEmpty then i.opcode.text
    else Text.padRight 8 i.opcode.text ++ " 0x" ++ i.operandHex

/-- **The literal an instruction works with**: its own operand, or else the literal that the
instruction just before it pushed.  That one must end where this one starts; anything less direct
is not followed. -/
def literal? (i : Instruction) (previous : Option Instruction) : Option (List UInt8) :=
  if i.operand.isEmpty then
    match previous with
    | none => none
    | some p =>
      if p.finish = i.offset then
        if p.opcode = Opcode.push0 then some [0]
        else if p.opcode.isPush then some p.operand
        else none
      else none
  else some i.operand

/-- The offset that a jump is statically known to go to. -/
def jumpTarget? (i : Instruction) (previous : Option Instruction) : Option Nat :=
  (i.literal? previous).bind bigEndian?

end Instruction

/-- The number of bytes that the instructions of a list cover. -/
def coveredBytes : List Instruction → Nat
  | [] => 0
  | i :: rest => i.size + coveredBytes rest

/-- The instruction that stands just before a position of a list. -/
def before? (instructions : Array Instruction) : (position : Nat) → Option Instruction
  | 0 => none
  | position + 1 => instructions[position]?

/-! ## Decoding -/

/-- **The instruction at an offset.**  There is none past the end of the image, and none when a
push reaches the last byte: the operand has to be followed by at least one more byte. -/
def decodeAt? (image : Image) (offset : Nat) : Option Instruction :=
  match image[offset]? with
  | none => none
  | some byte =>
    let op : Opcode := ⟨byte⟩
    if op.isPush then
      let finish := offset + 1 + op.operandSize
      if finish < image.size then some ⟨offset, op, (image.extract (offset + 1) finish).toList⟩
      else none
    else some ⟨offset, op, []⟩

/-- An instruction is decoded inside the image. -/
theorem lt_size_of_decodeAt? {image : Image} {offset : Nat} {i : Instruction}
    (h : decodeAt? image offset = some i) : offset < image.size := by
  rcases Nat.lt_or_ge offset image.size with hlt | hge
  · exact hlt
  · simp [decodeAt?, Array.getElem?_eq_none hge] at h

/-- An instruction is decoded at the offset that was asked for. -/
theorem offset_of_decodeAt? {image : Image} {offset : Nat} {i : Instruction}
    (h : decodeAt? image offset = some i) : i.offset = offset := by
  unfold decodeAt? at h
  split at h
  · cases h
  · dsimp only at h
    split at h
    · split at h <;> cases h
      rfl
    · cases h
      rfl

/-- Decoding moves forward, because an instruction covers its opcode byte at least. -/
theorem lt_finish_of_decodeAt? {image : Image} {offset : Nat} {i : Instruction}
    (h : decodeAt? image offset = some i) : offset < i.finish := by
  rw [Instruction.finish, Instruction.size, offset_of_decodeAt? h]
  omega

end BytecodeFlow
