import Mathlib
import BytecodeFlow.Disassembly.Sweep

/-!
# The sweep is the only faithful split of an image

An image is split into instructions and a tail if the bytes of the instructions, one after the other,
and then the tail are the bytes of the image, and if nothing else could have been read:
every operand is as long as its opcode says, a push is followed by a further byte, and the tail is a
push that is not.  `Disassembly.Split` collects these conditions; this file shows that the sweep
meets them and that nothing else does.

**Decoding.**  `decodeAt?_eq_some_iff` says which instruction is read at an offset: the one whose bytes
stand there.  `decodeAt?_eq_none_iff` says when there is none: what is left is cut short
(`CutShort`).

**Splits.**  `SplitFrom` is a split of what is left behind an offset.  It ends exactly where decoding
fails (`splitFrom_nil_iff`) and goes on exactly with the instruction that is decoded
(`splitFrom_cons_iff`), which are the two branches of the sweep.
-/

namespace BytecodeFlow

variable {image : Image} {offset : Nat} {i : Instruction}

/-! ## Decoding -/

/-- The bytes that write an instruction. -/
def Instruction.bytes (i : Instruction) : List UInt8 :=
  i.opcode.byte :: i.operand

lemma Instruction.length_bytes (i : Instruction) : i.bytes.length = i.size := by
  simp [Instruction.bytes, Instruction.size]
  omega

lemma Instruction.offset_lt_finish (i : Instruction) : i.offset < i.finish := by
  rw [Instruction.finish, Instruction.size]
  omega

lemma Opcode.operandSize_of_not_isPush {op : Opcode} (h : op.isPush = false) :
    op.operandSize = 0 := by
  simp [operandSize, h]

/-- Whether bytes start no instruction: there are none, or they are a push without a byte behind its
operand. -/
def CutShort (bytes : List UInt8) : Prop :=
  bytes = [] ∨ ∃ byte rest, bytes = byte :: rest ∧ (Opcode.mk byte).isPush = true ∧
    rest.length ≤ (Opcode.mk byte).operandSize

section Drop

variable {byte : UInt8} {rest : List UInt8}

lemma getElem?_of_drop (h : image.toList.drop offset = byte :: rest) :
    image[offset]? = some byte ∧ image.toList.drop (offset + 1) = rest := by
  constructor
  · rw [← Array.getElem?_toList, ← List.head?_drop, h]
    rfl
  · rw [← List.tail_drop, h]
    rfl

lemma size_of_drop (h : image.toList.drop offset = byte :: rest) :
    image.size = offset + 1 + rest.length := by
  have hlen := congrArg List.length h
  rw [List.length_drop, Array.length_toList, List.length_cons] at hlen
  omega

/-- What is decoded at a byte depends on the opcode and on how many bytes follow. -/
lemma decodeAt?_of_drop (h : image.toList.drop offset = byte :: rest) :
    decodeAt? image offset =
      if (Opcode.mk byte).isPush = true ∧ rest.length ≤ (Opcode.mk byte).operandSize then none
      else some ⟨offset, ⟨byte⟩, rest.take (Opcode.mk byte).operandSize⟩ := by
  obtain ⟨hbyte, hrest⟩ := getElem?_of_drop h
  have hsize := size_of_drop h
  simp only [decodeAt?, hbyte]
  by_cases hpush : (Opcode.mk byte).isPush = true
  · simp only [hpush, if_true, true_and]
    rw [Array.toList_extract, List.extract_eq_take_drop, Nat.add_sub_cancel_left, hrest]
    by_cases hcut : rest.length ≤ (Opcode.mk byte).operandSize
    · rw [if_neg (by omega), if_pos hcut]
    · rw [if_pos (by omega), if_neg hcut]
  · have hzero := Opcode.operandSize_of_not_isPush (by simpa using hpush)
    simp [hpush, hzero]

end Drop

lemma decodeAt?_of_drop_nil (h : image.toList.drop offset = []) : decodeAt? image offset = none := by
  have hsize : image.size ≤ offset := by simpa using h
  simp [decodeAt?, Array.getElem?_eq_none hsize]

/-- **The instruction that is read at an offset** is the one whose bytes stand there, if its operand
has the length that the opcode asks for and, for a push, is followed by a further byte. -/
lemma decodeAt?_eq_some_iff :
    decodeAt? image offset = some i ↔
      i.offset = offset ∧ i.operand.length = i.opcode.operandSize ∧
        (i.opcode.isPush = true → i.finish < image.size) ∧
        i.bytes <+: image.toList.drop offset := by
  cases hdrop : image.toList.drop offset with
  | nil => simp [decodeAt?_of_drop_nil hdrop, Instruction.bytes]
  | cons byte rest =>
      have hsize := size_of_drop hdrop
      rw [decodeAt?_of_drop hdrop, Instruction.bytes, List.cons_prefix_cons]
      constructor
      · intro h
        split_ifs at h with hcut
        obtain rfl := Option.some.inj h
        rw [not_and, Nat.not_le] at hcut
        have hlen : (rest.take (Opcode.mk byte).operandSize).length
            = (Opcode.mk byte).operandSize := by
          rw [List.length_take, Nat.min_eq_left]
          by_cases hpush : (Opcode.mk byte).isPush = true
          · exact Nat.le_of_lt (hcut hpush)
          · simp [Opcode.operandSize_of_not_isPush (by simpa using hpush)]
        refine ⟨rfl, hlen, fun hpush => ?_, rfl, List.take_prefix _ _⟩
        have := hcut hpush
        simp only [Instruction.finish, Instruction.size, hlen]
        omega
      · rintro ⟨rfl, hlen, hpush, rfl, hprefix⟩
        have htake := List.prefix_iff_eq_take.mp hprefix
        rw [hlen] at htake
        rw [if_neg, ← htake]
        rintro ⟨hp, hcut : rest.length ≤ i.opcode.operandSize⟩
        have hfinish : i.offset + (1 + i.operand.length) < image.size := hpush hp
        omega

/-- **No instruction is read** where what is left is cut short, and only there. -/
lemma decodeAt?_eq_none_iff :
    decodeAt? image offset = none ↔ CutShort (image.toList.drop offset) := by
  cases hdrop : image.toList.drop offset with
  | nil => simp [decodeAt?_of_drop_nil hdrop, CutShort]
  | cons byte rest => simp [decodeAt?_of_drop hdrop, CutShort]

lemma finish_le_of_decodeAt? (h : decodeAt? image offset = some i) : i.finish ≤ image.size := by
  obtain ⟨rfl, _, _, hprefix⟩ := decodeAt?_eq_some_iff.mp h
  have hlen := hprefix.length_le
  have hlt := lt_size_of_decodeAt? h
  rw [Instruction.length_bytes, List.length_drop, Array.length_toList] at hlen
  rw [Instruction.finish]
  omega

/-! ## Splits -/

/-- The bytes that write instructions, one after the other. -/
def encode (instructions : List Instruction) : List UInt8 :=
  instructions.flatMap Instruction.bytes

lemma encode_cons (i : Instruction) (instructions : List Instruction) :
    encode (i :: instructions) = i.bytes ++ encode instructions :=
  List.flatMap_cons

namespace Disassembly

variable {instructions : List Instruction} {tail : List UInt8}

/-- **A split of the image from an offset on** into instructions and a tail. -/
structure SplitFrom (image : Image) (offset : Nat) (instructions : List Instruction)
    (tail : List UInt8) : Prop where
  bytes_eq : encode instructions ++ tail = image.toList.drop offset
  offsets : ∀ (k : Nat) (i : Instruction), instructions[k]? = some i →
    i.offset = offset + coveredBytes (instructions.take k)
  operands : ∀ i ∈ instructions, i.operand.length = i.opcode.operandSize
  pushes : ∀ i ∈ instructions, i.opcode.isPush = true → i.finish < image.size
  tail_cut : CutShort tail

/-- Nothing is split off where decoding fails, and only there. -/
lemma splitFrom_nil_iff :
    SplitFrom image offset [] tail ↔
      decodeAt? image offset = none ∧ tail = image.toList.drop offset := by
  rw [decodeAt?_eq_none_iff]
  constructor
  · intro h
    have htail : tail = image.toList.drop offset := h.bytes_eq
    exact ⟨htail ▸ h.tail_cut, htail⟩
  · rintro ⟨hcut, rfl⟩
    exact ⟨rfl, by simp, by simp, by simp, hcut⟩

/-- **A split goes on with the instruction that is decoded**, and behind it. -/
lemma splitFrom_cons_iff :
    SplitFrom image offset (i :: instructions) tail ↔
      decodeAt? image offset = some i ∧ SplitFrom image i.finish instructions tail := by
  have hdrop : ∀ {rest}, i.bytes ++ rest = image.toList.drop offset →
      image.toList.drop (offset + i.size) = rest := by
    intro rest h
    rw [← List.drop_drop, ← h, ← Instruction.length_bytes, List.drop_left]
  constructor
  · intro h
    have hbytes : i.bytes ++ (encode instructions ++ tail) = image.toList.drop offset := by
      rw [← h.bytes_eq, encode_cons, List.append_assoc]
    have hoffset : i.offset = offset := by
      simpa [coveredBytes] using h.offsets 0 i rfl
    refine ⟨decodeAt?_eq_some_iff.mpr ⟨hoffset, h.operands i List.mem_cons_self,
      h.pushes i List.mem_cons_self, ⟨_, hbytes⟩⟩, ?_, fun k j hj => ?_, fun j hj => ?_,
      fun j hj => ?_, h.tail_cut⟩
    · rw [Instruction.finish, hoffset, hdrop hbytes]
    · rw [h.offsets (k + 1) j (by simpa using hj), Instruction.finish, hoffset, List.take_succ_cons,
        coveredBytes]
      omega
    · exact h.operands j (List.mem_cons_of_mem _ hj)
    · exact h.pushes j (List.mem_cons_of_mem _ hj)
  · rintro ⟨hi, h⟩
    obtain ⟨hoffset, hlen, hpush, rest, hrest⟩ := decodeAt?_eq_some_iff.mp hi
    refine ⟨?_, fun k j hj => ?_, ?_, ?_, h.tail_cut⟩
    · rw [encode_cons, List.append_assoc, h.bytes_eq, Instruction.finish, hoffset, hdrop hrest,
        hrest]
    · cases k with
      | zero =>
          obtain rfl : i = j := by simpa using hj
          simpa [coveredBytes] using hoffset
      | succ k =>
          rw [h.offsets k j (by simpa using hj), Instruction.finish, hoffset, List.take_succ_cons,
            coveredBytes]
          omega
    · simpa using ⟨hlen, h.operands⟩
    · simpa using ⟨hpush, h.pushes⟩

lemma sweepFrom_of_none (h : decodeAt? image offset = none) :
    sweepFrom image offset = ([], image.size - offset) := by
  rw [sweepFrom]
  split
  · simp_all
  · rfl

lemma sweepFrom_of_some (h : decodeAt? image offset = some i) :
    sweepFrom image offset
      = (i :: (sweepFrom image i.finish).1, (sweepFrom image i.finish).2) := by
  rw [sweepFrom]
  split
  · simp_all
  · simp_all

/-- **What the sweep reads from an offset on is the only split there is.** -/
lemma splitFrom_iff_sweepFrom :
    SplitFrom image offset instructions tail ↔
      sweepFrom image offset = (instructions, tail.length) ∧
        tail = image.toList.drop (offset + coveredBytes instructions) := by
  induction instructions generalizing offset with
  | nil =>
      rw [splitFrom_nil_iff, coveredBytes, Nat.add_zero]
      refine and_congr_left fun htail => ?_
      cases hdecode : decodeAt? image offset with
      | none => simp [sweepFrom_of_none hdecode, htail]
      | some i => simp [sweepFrom_of_some hdecode]
  | cons i instructions ih =>
      rw [splitFrom_cons_iff, ih]
      cases hdecode : decodeAt? image offset with
      | none => simp [sweepFrom_of_none hdecode]
      | some j =>
          simp only [sweepFrom_of_some hdecode, Option.some.injEq, Prod.ext_iff, List.cons.injEq,
            and_assoc]
          refine and_congr_right ?_
          rintro rfl
          rw [coveredBytes, ← Nat.add_assoc, Instruction.finish, offset_of_decodeAt? hdecode]

lemma sweep_eq (himage : image ≠ #[]) :
    sweep image = .ok ⟨(sweepFrom image 0).1.toArray, (sweepFrom image 0).2⟩ := by
  simp [sweep, himage]

/-- What the sweep leaves behind is shorter than the image by what it covers. -/
lemma snd_sweepFrom (image : Image) (offset : Nat) :
    (sweepFrom image offset).2 = image.size - (offset + coveredBytes (sweepFrom image offset).1) := by
  fun_induction sweepFrom image offset with
  | case1 offset i hi _ _ rest left hrest ih =>
      have hfinish : i.finish = offset + i.size := by rw [Instruction.finish, offset_of_decodeAt? hi]
      rw [hrest, hfinish, Nat.add_assoc] at ih
      exact ih
  | case2 offset _ => simp [coveredBytes]

/-- **The sweep is the only faithful split of an image.**  It gives a result, whose instructions
split the image together with a tail of the bytes that it leaves undecoded.  Nothing else splits the
image, and the bytes of a split read back as its instructions. -/
theorem sweep_unique_split (image : Image) (himage : image ≠ #[]) :
    ∃ d tail, sweep image = .ok d ∧ tail.length = d.undecoded ∧
      SplitFrom image 0 d.instructions.toList tail ∧
      ∀ instructions rest, SplitFrom image 0 instructions rest →
        instructions = d.instructions.toList ∧ rest = tail ∧
          sweep (encode instructions ++ rest).toArray = .ok d := by
  have hread : SplitFrom image 0 (sweepFrom image 0).1
      (image.toList.drop (0 + coveredBytes (sweepFrom image 0).1)) := by
    rw [splitFrom_iff_sweepFrom, List.length_drop, Array.length_toList, ← snd_sweepFrom]
    exact ⟨rfl, rfl⟩
  refine ⟨_, _, sweep_eq himage, ?_, hread, fun instructions rest hsplit => ?_⟩
  · rw [List.length_drop, Array.length_toList, ← snd_sweepFrom]
  · have hbytes : (encode instructions ++ rest).toArray = image := by
      rw [hsplit.bytes_eq, List.drop_zero, Array.toArray_toList]
    obtain ⟨hsweep, rfl⟩ := splitFrom_iff_sweepFrom.mp hsplit
    refine ⟨by rw [hsweep], by rw [hsweep], ?_⟩
    rw [hbytes, sweep_eq himage]

/-- A push of two bytes that look like a jump to a destination, an instruction behind it, and a push
that is cut short. -/
theorem sweep_split_sample :
    (#[0x61, 0x5b, 0x56, 0x00, 0x60, 0x01] : Image) ≠ #[] ∧
      sweep #[0x61, 0x5b, 0x56, 0x00, 0x60, 0x01]
        = .ok ⟨#[⟨0, ⟨0x61⟩, [0x5b, 0x56]⟩, ⟨3, .stop, []⟩], 2⟩ := by
  obtain ⟨⟨instructions, undecoded⟩, tail, hsweep, rfl, _, hunique⟩ :=
    sweep_unique_split #[0x61, 0x5b, 0x56, 0x00, 0x60, 0x01] (by decide)
  have hsplit : SplitFrom #[0x61, 0x5b, 0x56, 0x00, 0x60, 0x01] 0
      [⟨0, ⟨0x61⟩, [0x5b, 0x56]⟩, ⟨3, .stop, []⟩] [0x60, 0x01] := by
    refine ⟨by decide, ?_, by decide, by decide, Or.inr ⟨0x60, [0x01], rfl, by decide, by decide⟩⟩
    rintro (_ | _ | k) i hi <;> simp at hi <;> subst hi <;> decide
  obtain ⟨hinstructions, rfl, _⟩ := hunique _ _ hsplit
  obtain rfl : #[⟨0, ⟨0x61⟩, [0x5b, 0x56]⟩, ⟨3, .stop, []⟩] = instructions :=
    Array.toList_inj.mp hinstructions
  exact ⟨by decide, hsweep⟩

end Disassembly

end BytecodeFlow
