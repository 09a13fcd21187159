import Mathlib
import BytecodeFlow.Json.Schema
import BytecodeFlow.Proofs.Passes
import BytecodeFlow.Proofs.Spelling

/-!
# Disassemblies survive being written and read

A disassembly is written as a JSON value in one way and read in many: opcodes go by several names, digits
have either case, and a record may be an array.  This file shows that whatever is read can be written and
read again without a change.

**Writing, then reading.**  Every opcode is read from its text and every operand from its digits, so an
instruction is read from its value (`instruction_toJson`) as soon as its offset fits a 64-bit word.
`Disassembly.Fits` asks this of all numbers of a disassembly.

**Reading, then writing.**  A reader of numbers gives words only.  Wherever a field comes from, an object
or an array, its reader gave the value (`exists_of_field`, `exists_of_positional`), so what is read fits
(`fits_of_read`).
-/

namespace BytecodeFlow

/-- Whether all numbers of a disassembly fit a 64-bit word. -/
structure Disassembly.Fits (d : Disassembly) : Prop where
  offset_lt : ∀ i ∈ d.instructions, i.offset < Text.wordBound
  undecoded_lt : d.undecoded < Text.wordBound

namespace Json

/-! ## Writing, then reading -/

/-- An offset is read back if it has 64 bits. -/
lemma offset_nat {n : Nat} (h : n < Text.wordBound) : offset (.nat n) = .ok n := by
  have hnonneg : ¬(n : Int) < 0 := by omega
  have hlt : (n : Int) < (Text.wordBound : Nat) := by exact_mod_cast h
  rw [nat, offset, if_neg hnonneg, if_pos hlt, Int.toNat_natCast]

-- Names and values stay variables in these equations, or the kernel looks into what is written.
/-- An opcode is read from any of its names. -/
lemma opcode_of_parse {name : String} {op : Opcode} (h : Opcode.parse name = .ok op) :
    opcode (.string name) = .ok op := by
  simp only [opcode, text, bind, Except.bind, h]
  rfl

/-- Bytes are read from their digits. -/
lemma bytes_encode (bytes' : List UInt8) : bytes (.string (Hex.encode bytes')) = .ok bytes' := by
  rw [bytes, Hex.encode, String.toList_ofList, Hex.decode_digits]
  rfl

/-- An instruction is read from its members, in the order in which they are written. -/
lemma instruction_of_members {a b c : Json} {i : Instruction} (ha : offset a = .ok i.offset)
    (hb : opcode b = .ok i.opcode) (hc : bytes c = .ok i.operand) :
    instruction (.object [("offset", a), ("opcode", b), ("operand", c)]) = .ok i := by
  simp [instruction, optional, member?, List.lookup, required, ha, hb, hc, bind, Except.bind, pure,
    Except.pure, Functor.map, Except.map]

/-- A disassembly is read from its members. -/
lemma disassembly_of_members {a b : Json} {d : Disassembly} (ha : instructions a = .ok d.instructions)
    (hb : offset b = .ok d.undecoded) :
    disassembly (.object [("instructions", a), ("undecoded", b)]) = .ok d := by
  simp [disassembly, optional, member?, List.lookup, required, ha, hb, bind, Except.bind, pure,
    Except.pure, Functor.map, Except.map]

/-- **What is written of an instruction is read as that instruction.** -/
lemma instruction_toJson {i : Instruction} (h : i.offset < Text.wordBound) :
    instruction i.toJson = .ok i :=
  instruction_of_members (offset_nat h) (opcode_of_parse (Opcode.parse_text i.opcode))
    (bytes_encode i.operand)

lemma instructions_toJson {list : List Instruction} (h : ∀ i ∈ list, i.offset < Text.wordBound) :
    instructions (.array (list.map Instruction.toJson)) = .ok list.toArray := by
  have hread : (list.map Instruction.toJson).mapM instruction = .ok list := by
    rw [mapM_eq_ok_iff, List.forall₂_map_left_iff, List.forall₂_same]
    exact fun i hi => instruction_toJson (h i hi)
  simp only [instructions, sequence, hread, bind, Except.bind, pure, Except.pure]

lemma disassembly_toJson {d : Disassembly} (h : d.Fits) : disassembly d.toJson = .ok d := by
  refine disassembly_of_members ?_ (offset_nat h.undecoded_lt)
  rw [instructions_toJson (by simpa using h.offset_lt), Array.toArray_toList]

/-! ## Reading, then writing -/

section Fields

variable {α : Type} {value : Reader α} {x : α}

/-- The value of a field of an object was given by the reader of the field. -/
lemma exists_of_field {members : List (String × Json)} {field : String} {found : Option α}
    (hread : optional members field value = .ok found) (hfound : required field found = .ok x) :
    ∃ v, value v = .ok x := by
  cases found with
  | none => cases hfound
  | some y =>
      obtain rfl : y = x := Except.ok.inj hfound
      rw [optional] at hread
      cases hmember : member? members field with
      | none =>
          rw [hmember] at hread
          cases hread
      | some v =>
          rw [hmember] at hread
          obtain ⟨z, hz, hread⟩ := exists_of_bind_eq_ok hread
          obtain rfl : z = y := Option.some.inj (Except.ok.inj hread)
          exact ⟨v, hz⟩

/-- So was the value of an item of an array. -/
lemma exists_of_positional {r : Record} {items : List Json} {position : Nat}
    (h : positional r items position value = .ok x) : ∃ v, value v = .ok x := by
  rw [positional] at h
  split at h
  · exact ⟨_, h⟩
  · cases h

end Fields

/-- No reader gives an offset of more than 64 bits. -/
lemma lt_of_offset {v : Json} {n : Nat} (h : offset v = .ok n) : n < Text.wordBound := by
  unfold offset at h
  split at h
  · split_ifs at h with hneg hlt
    · obtain rfl := Except.ok.inj h
      omega
    · cases h
  · cases h

lemma lt_of_instruction {v : Json} {i : Instruction} (h : instruction v = .ok i) :
    i.offset < Text.wordBound := by
  suffices hfield : ∃ w, offset w = .ok i.offset from lt_of_offset hfield.choose_spec
  unfold instruction at h
  split at h
  · obtain ⟨offset?, hread, h⟩ := exists_of_bind_eq_ok h
    obtain ⟨opcode?, _, h⟩ := exists_of_bind_eq_ok h
    obtain ⟨operand?, _, h⟩ := exists_of_bind_eq_ok h
    obtain ⟨n, hn, h⟩ := exists_of_bind_eq_ok h
    obtain ⟨op, _, h⟩ := exists_of_bind_eq_ok h
    obtain ⟨operand, _, h⟩ := exists_of_bind_eq_ok h
    obtain rfl := Except.ok.inj h
    exact exists_of_field hread hn
  · obtain ⟨n, hn, h⟩ := exists_of_bind_eq_ok h
    obtain ⟨op, _, h⟩ := exists_of_bind_eq_ok h
    obtain ⟨operand, _, h⟩ := exists_of_bind_eq_ok h
    obtain ⟨_, _, h⟩ := exists_of_bind_eq_ok h
    obtain rfl := Except.ok.inj h
    exact exists_of_positional hn
  · cases h

lemma lt_of_instructions {v : Json} {list : Array Instruction} (h : instructions v = .ok list) :
    ∀ i ∈ list, i.offset < Text.wordBound := by
  obtain ⟨items, hitems, hlist⟩ := exists_of_bind_eq_ok h
  obtain rfl := Except.ok.inj hlist
  unfold sequence at hitems
  split at hitems
  · have hread := mapM_eq_ok_iff.mp hitems
    clear h hlist hitems
    induction hread with
    | nil => simp
    | cons hitem _ ih => simpa using ⟨lt_of_instruction hitem, by simpa using ih⟩
  · cases hitems

/-- **What is read fits.** -/
lemma fits_of_read {v : Json} {d : Disassembly} (h : disassembly v = .ok d) : d.Fits := by
  suffices hfields : (∃ w, instructions w = .ok d.instructions) ∧ ∃ w, offset w = .ok d.undecoded from
    ⟨lt_of_instructions hfields.1.choose_spec, lt_of_offset hfields.2.choose_spec⟩
  unfold disassembly at h
  split at h
  · obtain ⟨instructions?, hinstructions, h⟩ := exists_of_bind_eq_ok h
    obtain ⟨undecoded?, hundecoded, h⟩ := exists_of_bind_eq_ok h
    obtain ⟨list, hlist, h⟩ := exists_of_bind_eq_ok h
    obtain ⟨undecoded, hcount, h⟩ := exists_of_bind_eq_ok h
    obtain rfl := Except.ok.inj h
    exact ⟨exists_of_field hinstructions hlist, exists_of_field hundecoded hcount⟩
  · obtain ⟨list, hlist, h⟩ := exists_of_bind_eq_ok h
    obtain ⟨undecoded, hcount, h⟩ := exists_of_bind_eq_ok h
    obtain ⟨_, _, h⟩ := exists_of_bind_eq_ok h
    obtain rfl := Except.ok.inj h
    exact ⟨exists_of_positional hlist, exists_of_positional hcount⟩
  · cases h

/-- **A disassembly is read from the value that is written for it**, whatever its opcodes and operands are
and in whatever order it lists them, as long as its numbers fit a word.  The numbers of one that was read
from any value do. -/
theorem disassembly_round_trip :
    (∀ d : Disassembly, d.Fits → disassembly d.toJson = .ok d) ∧
      ∀ (v : Json) (d : Disassembly), disassembly v = .ok d → disassembly d.toJson = .ok d :=
  ⟨fun _ hfits => disassembly_toJson hfits, fun _ _ hread => disassembly_toJson (fits_of_read hread)⟩

/-- An unassigned byte with an operand at the last offset of all, and an assigned one in front of it. -/
def scattered : Disassembly :=
  ⟨#[⟨0xffffffffffffffff, ⟨0x0c⟩, [0xab]⟩, ⟨0, ⟨0x20⟩, []⟩], 7⟩

/-- The same in other words: records as arrays, a former name and digits of the other case. -/
def scatteredOtherwise : Json :=
  .array [.array [.array [.nat 0xffffffffffffffff, .string "unknown(0x+00C)", .string "AB"],
    .array [.nat 0, .string " Keccak256", .string ""]], .nat 7]

/-- The sample fits and is read from its value, and the other value is read as the sample as well. -/
theorem disassembly_round_trip_scattered :
    (scattered.Fits ∧ disassembly scattered.toJson = .ok scattered) ∧
      disassembly scatteredOtherwise = .ok scattered ∧ disassembly scattered.toJson = .ok scattered := by
  have hfits : scattered.Fits := ⟨by simp [scattered, Text.wordBound], by decide⟩
  have hother : disassembly scatteredOtherwise = .ok scattered := by decide +kernel
  exact ⟨⟨hfits, disassembly_round_trip.1 scattered hfits⟩, hother,
    disassembly_round_trip.2 scatteredOtherwise scattered hother⟩

end Json

end BytecodeFlow
