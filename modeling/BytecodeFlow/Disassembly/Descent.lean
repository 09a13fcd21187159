import BytecodeFlow.Disassembly.Basic
import BytecodeFlow.Error
import BytecodeFlow.Marks

/-!
# Recursive descent

The descent follows control flow from the front of the image instead of reading all of it.  A run
goes on from instruction to instruction until one of them halts; every jump whose target is known
and holds a jump destination starts a later run.  Bytes that no run reaches stay undecoded: they
may be data, and reading them as code would only produce noise.

* `Cell` — what the descent knows about a byte: nothing, the head of an instruction, or a byte
  inside one.  Each byte is given to one instruction at most.
* `Run.follow` — one run.  It ends where it meets an earlier run, at an instruction that halts, at
  a byte that starts no instruction, and at an instruction that would share a byte with one read
  earlier.
* `explore` — the runs one after the other, in the order in which their starts were found.
* `descend` — the disassembly that results, with the instructions that were given up.
-/

namespace BytecodeFlow.Disassembly

/-- What the descent knows about one byte of the image. -/
inductive Cell where
  /-- No instruction read so far covers the byte. -/
  | free
  /-- The byte is the opcode of an instruction. -/
  | head (i : Instruction)
  /-- The byte belongs to an operand. -/
  | inside
deriving DecidableEq, Repr

/-- Whether an instruction starts at the byte. -/
def Cell.isHead : Cell → Bool
  | .head _ => true
  | _ => false

/-- The instruction that starts at the byte. -/
def Cell.instruction? : Cell → Option Instruction
  | .head i => some i
  | _ => none

/-- Whether the byte at an offset belongs to an operand. -/
def isInside (cells : Array Cell) (offset : Nat) : Bool :=
  cells[offset]? = some .inside

/-- Whether an instruction starts at an offset. -/
def isHeadAt (cells : Array Cell) (offset : Nat) : Bool :=
  (cells[offset]?).any Cell.isHead

/-- Whether an instruction with these bounds would share a byte with one that was read earlier:
it starts inside an operand, or another instruction starts inside it. -/
def overlaps (cells : Array Cell) (offset finish : Nat) : Bool :=
  isInside cells offset || (cells.extract (offset + 1) finish).any Cell.isHead

/-- The cells after the bytes of an instruction have been given to it. -/
def claim (cells : Array Cell) (i : Instruction) : Array Cell :=
  (List.range' (i.offset + 1) i.operand.length).foldl (fun cells k => cells.setIfInBounds k .inside)
    (cells.setIfInBounds i.offset (.head i))

/-- What one run leaves behind. -/
structure Run where
  cells : Array Cell
  /-- The offsets that jumps of the run go to, in order. -/
  targets : Array Nat
  /-- The instruction that the run gave up because it overlaps an earlier one. -/
  refused : Option Instruction
deriving DecidableEq, Repr

/-- The target of a jump, if it is known and holds a jump destination. -/
def landing? (image : Image) (i : Instruction) (previous : Option Instruction) : Option Nat :=
  if i.opcode.isJump then
    (i.jumpTarget? previous).filter fun target => image[target]? = some Opcode.jumpdest.byte
  else none

/-- A run after one more instruction. -/
def Run.extend (image : Image) (run : Run) (previous : Option Instruction) (i : Instruction) :
    Run :=
  ⟨claim run.cells i, run.targets ++ (landing? image i previous).toArray, run.refused⟩

/-- **One run**, from an offset on.  Only the instruction read just before it in the same run can
push the target of a jump. -/
def Run.follow (image : Image) (run : Run) (previous : Option Instruction) (offset : Nat) :
    Run :=
  match h : decodeAt? image offset with
  | some i =>
    have := lt_size_of_decodeAt? h
    have := lt_finish_of_decodeAt? h
    if isHeadAt run.cells i.offset then run
    else if overlaps run.cells i.offset i.finish then { run with refused := some i }
    else if i.opcode.halts then run.extend image previous i
    else Run.follow image (run.extend image previous i) (some i) i.finish
  | none => run
termination_by image.size - offset

/-- What all runs together leave behind. -/
structure Survey where
  cells : Array Cell
  /-- The instructions that runs gave up, in order. -/
  refused : Array Instruction

/-- **The runs from a queue of offsets**, each offset started at most once.  The targets of a run
join the queue behind what waits there already.  A start inside an operand is skipped. -/
def explore (image : Image) (started : Array Bool) (survey : Survey) (queue : List Nat) :
    Survey :=
  match queue with
  | [] => survey
  | start :: rest =>
    if h : start < started.size then
      if started[start] then explore image started survey rest
      else
        let started' := started.set start true
        if isInside survey.cells start then explore image started' survey rest
        else
          let run := Run.follow image ⟨survey.cells, #[], none⟩ none start
          let fresh := run.targets.toList.filter fun target => started'[target]? ≠ some true
          explore image started' ⟨run.cells, survey.refused ++ run.refused.toArray⟩ (rest ++ fresh)
    else explore image started survey rest
termination_by (started.count false, queue.length)
decreasing_by
  · exact Prod.Lex.right _ (by simp)
  · have hfree : started[start] = false := by simpa using ‹¬started[start] = true›
    exact Prod.Lex.left _ _ (Marks.count_set_lt h hfree (by decide))
  · have hfree : started[start] = false := by simpa using ‹¬started[start] = true›
    exact Prod.Lex.left _ _ (Marks.count_set_lt h hfree (by decide))
  · exact Prod.Lex.right _ (by simp)

/-- A disassembly, with the instructions that were given up on the way. -/
structure Reading where
  disassembly : Disassembly
  refused : List Instruction
deriving DecidableEq, Repr

/-- **The recursive descent through an image** from its first byte, which fails only if there is
nothing to read. -/
def descend (image : Image) : Except Error Reading :=
  if image.isEmpty then .error .emptyInput
  else
    let survey := explore image (Array.replicate image.size false)
      ⟨Array.replicate image.size .free, #[]⟩ [0]
    let instructions := survey.cells.filterMap Cell.instruction?
    let covered := coveredBytes instructions.toList
    .ok ⟨⟨instructions, image.size - covered⟩, survey.refused.toList⟩

end BytecodeFlow.Disassembly
