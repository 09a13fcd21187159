import Mathlib
import BytecodeFlow.Instruction

/-!
# The numbers that literal bytes write

`bigEndian?` drops the zeros in front of a literal, refuses what is left if it is longer than eight bytes,
and shifts the rest into a word of 64 bits.  This file compares it with the positional value of the bytes,
which has no bound.

**Values.**  `positional` weighs every byte by its place.  Its two recursions, from the front
(`positional_cons`) and from the back (`positional_append_singleton`), go with the zeros that are dropped and
with the bytes that are shifted in.  Zeros in front add nothing (`positional_dropWhile`).

**Words.**  Shifting a byte in multiplies by 256 and adds as long as the result fits
(`toNat_shiftLeft_or`).  So a word holds the value of up to eight bytes (`toNat_bigEndianWord`).

**Widths.**  The first significant byte is not zero, so more than eight significant bytes write more than a
word holds (`length_le_of_positional_lt`): counting the bytes is the same as bounding the value.
-/

namespace BytecodeFlow

variable {bytes : List UInt8}

/-! ## Values -/

/-- **The positional value of bytes**, most significant byte first. -/
def positional (bytes : List UInt8) : Nat :=
  ∑ i : Fin bytes.length, bytes[i].toNat * 256 ^ (bytes.length - 1 - i)

lemma positional_nil : positional [] = 0 := rfl

/-- The first byte has the greatest weight. -/
lemma positional_cons (byte : UInt8) (bytes : List UInt8) :
    positional (byte :: bytes) = byte.toNat * 256 ^ bytes.length + positional bytes := by
  simp only [positional, List.length_cons, Fin.sum_univ_succ]
  congr 1
  refine Finset.sum_congr rfl fun i _ => ?_
  have hplace : bytes.length + 1 - 1 - (i.succ : Nat) = bytes.length - 1 - i := by
    simp only [Fin.val_succ]
    omega
  rw [hplace]
  rfl

/-- One more byte multiplies what stands before it. -/
lemma positional_append_singleton (bytes : List UInt8) (byte : UInt8) :
    positional (bytes ++ [byte]) = positional bytes * 256 + byte.toNat := by
  induction bytes with
  | nil => simp [positional_nil, positional_cons]
  | cons first bytes ih =>
      rw [List.cons_append, positional_cons, positional_cons, ih, List.length_append,
        List.length_singleton, pow_succ]
      ring

/-- A sum of so many bytes is below the power of their base. -/
lemma positional_lt (bytes : List UInt8) : positional bytes < 256 ^ bytes.length := by
  induction bytes with
  | nil => simp [positional_nil]
  | cons byte bytes ih =>
      have hbyte : byte.toNat + 1 ≤ 256 := byte.toNat_lt
      calc positional (byte :: bytes)
          = byte.toNat * 256 ^ bytes.length + positional bytes := positional_cons byte bytes
        _ < byte.toNat * 256 ^ bytes.length + 256 ^ bytes.length := by omega
        _ = (byte.toNat + 1) * 256 ^ bytes.length := by ring
        _ ≤ 256 * 256 ^ bytes.length := Nat.mul_le_mul_right _ hbyte
        _ = 256 ^ (byte :: bytes).length := by rw [List.length_cons, pow_succ, Nat.mul_comm]

/-- **Zeros in front add nothing.** -/
lemma positional_dropWhile (bytes : List UInt8) :
    positional (bytes.dropWhile (· = 0)) = positional bytes := by
  induction bytes with
  | nil => rfl
  | cons byte bytes ih =>
      by_cases hbyte : byte = 0
      · simp [positional_cons, hbyte, ih]
      · simp [hbyte]

/-! ## Words -/

/-- **Shifting a byte in loses no bit** as long as the result fits. -/
lemma toNat_shiftLeft_or {word : UInt64} {byte : UInt8}
    (h : word.toNat * 256 + byte.toNat < 2 ^ 64) :
    (word <<< 8 ||| byte.toUInt64).toNat = word.toNat * 256 + byte.toNat := by
  have hbyte : byte.toNat < 2 ^ 8 := byte.toNat_lt
  have hshift : (word <<< 8).toNat = word.toNat <<< 8 := by
    have hfits : word.toNat * 2 ^ 8 < 2 ^ 64 := lt_of_le_of_lt (Nat.le_add_right _ _) h
    simp only [UInt64.toNat_shiftLeft, UInt64.reduceToNat, Nat.reduceMod, Nat.shiftLeft_eq]
    exact Nat.mod_eq_of_lt hfits
  rw [UInt64.toNat_or, hshift, UInt8.toNat_toUInt64, ← Nat.shiftLeft_add_eq_or_of_lt hbyte,
    Nat.shiftLeft_eq]

/-- **A word holds the value of up to eight bytes.** -/
lemma toNat_bigEndianWord (h : bytes.length ≤ 8) :
    (bigEndianWord bytes).toNat = positional bytes := by
  induction bytes using List.reverseRecOn with
  | nil => rfl
  | append_singleton bytes byte ih =>
      have hfits : positional (bytes ++ [byte]) < 2 ^ 64 := by
        calc positional (bytes ++ [byte])
            < 256 ^ (bytes ++ [byte]).length := positional_lt _
          _ ≤ 256 ^ 8 := Nat.pow_le_pow_right (by decide) h
          _ = 2 ^ 64 := by norm_num
      have hbytes := ih (by simp at h; omega)
      rw [positional_append_singleton, ← hbytes] at hfits ⊢
      rw [bigEndianWord, List.foldl_append]
      exact toNat_shiftLeft_or hfits

/-! ## Widths -/

lemma head_dropWhile_ne {byte : UInt8} {rest : List UInt8}
    (h : bytes.dropWhile (· = 0) = byte :: rest) : byte ≠ 0 := by
  have hhead := List.head?_dropWhile_not (fun b : UInt8 => decide (b = 0)) bytes
  simpa [h] using hhead

/-- The first significant byte is not zero, so the value grows with the number of them. -/
lemma length_le_of_positional_lt {n : Nat} (h : positional bytes < 256 ^ n) :
    (bytes.dropWhile (· = 0)).length ≤ n := by
  rw [← positional_dropWhile] at h
  cases hsignificant : bytes.dropWhile (· = 0) with
  | nil => simp
  | cons byte rest =>
      have hpos : 0 < byte.toNat := by
        rw [Nat.pos_iff_ne_zero]
        intro hzero
        exact head_dropWhile_ne hsignificant (UInt8.toNat_inj.mp hzero)
      rw [hsignificant, positional_cons] at h
      have hlow : 256 ^ rest.length ≤ byte.toNat * 256 ^ rest.length := Nat.le_mul_of_pos_left _ hpos
      have hpow : 256 ^ rest.length < 256 ^ n := by omega
      exact (Nat.pow_lt_pow_iff_right (by decide)).mp hpow

lemma length_le_eight_iff :
    (bytes.dropWhile (· = 0)).length ≤ 8 ↔ positional bytes < 2 ^ 64 := by
  have hword : (256 : Nat) ^ 8 = 2 ^ 64 := by norm_num
  rw [← hword]
  refine ⟨fun h => ?_, length_le_of_positional_lt⟩
  rw [← positional_dropWhile]
  exact (positional_lt _).trans_le (Nat.pow_le_pow_right (by decide) h)

/-- **The value is found if it has 64 bits**, whatever the number of zeros in front. -/
lemma bigEndian?_eq (hsome : bytes ≠ []) :
    bigEndian? bytes = if positional bytes < 2 ^ 64 then some (positional bytes) else none := by
  simp only [bigEndian?, List.isEmpty_iff, hsome, if_false]
  split_ifs with hlong hfits hfits
  · exact absurd (length_le_eight_iff.mpr hfits) (by omega)
  · rfl
  · rw [toNat_bigEndianWord (by omega), positional_dropWhile]
  · exact absurd (length_le_eight_iff.mp (by omega)) hfits

/-- Zeros in front count for nothing. -/
lemma positional_replicate_append (n : Nat) (bytes : List UInt8) :
    positional (List.replicate n 0 ++ bytes) = positional bytes := by
  induction n with
  | zero => rfl
  | succ n ih => simp [List.replicate_succ, positional_cons, ih]

/-- **The offset that bytes write is their positional value**, and there is one exactly if there are bytes
and their value fits a word.  Whatever part of the significant bytes has been shifted in, the word holds its
value, so that no bit is lost on the way; and zeros in front of bytes do not matter. -/
theorem big_endian_exact (bytes : List UInt8) :
    (∀ value, bigEndian? bytes = some value ↔
        bytes ≠ [] ∧ value = positional bytes ∧ positional bytes < 2 ^ 64) ∧
      (bigEndian? bytes = none ↔ bytes = [] ∨ 2 ^ 64 ≤ positional bytes) ∧
      (∀ front, front <+: bytes.dropWhile (· = 0) → (bytes.dropWhile (· = 0)).length ≤ 8 →
        (bigEndianWord front).toNat = positional front) ∧
      ∀ zeros, bytes ≠ [] → bigEndian? (List.replicate zeros 0 ++ bytes) = bigEndian? bytes := by
  refine ⟨fun value => ?_, ?_, fun front hfront hlength => ?_, fun zeros hsome => ?_⟩
  · rcases eq_or_ne bytes [] with rfl | hsome
    · simp [bigEndian?]
    · rw [bigEndian?_eq hsome]
      split_ifs with hfits
      · rw [Option.some_inj]
        exact ⟨fun h => ⟨hsome, h.symm, hfits⟩, fun h => h.2.1.symm⟩
      · exact iff_of_false (by simp) fun h => hfits h.2.2
  · rcases eq_or_ne bytes [] with rfl | hsome
    · simp [bigEndian?]
    · rw [bigEndian?_eq hsome]
      split_ifs with hfits
      · simpa [hsome] using hfits
      · simpa [hsome] using Nat.not_lt.mp hfits
  · exact toNat_bigEndianWord (hfront.length_le.trans hlength)
  · rw [bigEndian?_eq hsome, bigEndian?_eq (by simp [hsome]), positional_replicate_append]

/-- The largest offset, behind a zero: it takes all eight bytes, and each one but the last leaves room for
those behind it. -/
theorem big_endian_exact_largest :
    bigEndian? (0 :: List.replicate 8 255) = some (2 ^ 64 - 1) ∧
      (bigEndianWord (List.replicate 7 255)).toNat = positional (List.replicate 7 255) ∧
      bigEndian? (List.replicate 24 0 ++ (0 :: List.replicate 8 255)) = some (2 ^ 64 - 1) ∧
      bigEndian? (1 :: List.replicate 8 0) = none := by
  have hlargest : positional (0 :: List.replicate 8 255) = 2 ^ 64 - 1 := by
    simp [List.replicate, positional_cons, positional_nil]
  have hover : positional (1 :: List.replicate 8 0) = 2 ^ 64 := by
    simp [List.replicate, positional_cons, positional_nil]
  obtain ⟨hiff, -, hword, hzeros⟩ := big_endian_exact (0 :: List.replicate 8 255)
  have hoffset : bigEndian? (0 :: List.replicate 8 255) = some (2 ^ 64 - 1) :=
    (hiff _).mpr ⟨by simp, hlargest.symm, by rw [hlargest]; norm_num⟩
  refine ⟨hoffset, hword _ ?_ ?_, (hzeros 24 (by simp)).trans hoffset,
    (big_endian_exact (1 :: List.replicate 8 0)).2.1.mpr (Or.inr hover.ge)⟩
  · exact ⟨[255], rfl⟩
  · decide

end BytecodeFlow
