import Mathlib
import BytecodeFlow.Proofs.Spelling
import BytecodeFlow.Report.Ngram

/-!
# The counts of opcode sequences are exact

The report of opcode sequences counts texts.  This file shows that counting the texts is counting the
sequences: no two sequences have the same text, and no position of the code is lost or counted twice.

**Texts.**  A token is the text of an opcode, and after an underscore the digits of the operand.  Neither
part has an underscore or a space in it, so a token can be cut at its underscore (`spelled_injective`) and a
key at its spaces (`key_eq_key_iff`).

**Counts.**  The texts are put in order first.  Equal ones are neighbours then, and `tally` gives every
text once, with its number of occurrences (`tallied_tally`).  The second sort permutes the entries.
-/

namespace BytecodeFlow.Report.Ngram

/-- The sequence that starts at a position. -/
def windowAt (options : Options) (instructions : List Instruction) (p : Nat) : List Instruction :=
  (instructions.drop p).take options.n

/-- The positions where a sequence of full length starts. -/
def positions (options : Options) (instructions : List Instruction) : List Nat :=
  List.range (instructions.length - options.n + 1)

/-- Two sequences are the same for the report: in their opcodes, and in their operands if these are
included. -/
def Alike (options : Options) (v w : List Instruction) : Prop :=
  if options.includeOperands then
    v.map (fun i => (i.opcode, i.operand)) = w.map (fun i => (i.opcode, i.operand))
  else v.map (·.opcode) = w.map (·.opcode)

instance (options : Options) (v w : List Instruction) : Decidable (Alike options v w) :=
  inferInstanceAs (Decidable (if options.includeOperands then _ else _))

/-! ## Texts -/

/-- An opcode with literal bytes as a token. -/
def spelled (part : Opcode × List UInt8) : String :=
  if part.2.isEmpty then part.1.text else part.1.text ++ "_" ++ Hex.encode part.2

/-- A token spells the opcode, and the operand if it is shown. -/
lemma token_eq_spelled (options : Options) (i : Instruction) :
    token options i = spelled (i.opcode, if options.includeOperands then i.operand else []) := by
  cases h : options.includeOperands <;> simp [token, spelled, h, Instruction.operandHex]

lemma toList_spelled (part : Opcode × List UInt8) :
    (spelled part).toList =
      part.1.text.toList ++ if part.2.isEmpty then [] else '_' :: Hex.digits part.2 := by
  rw [spelled]
  split_ifs <;> simp [Hex.encode]

lemma not_mem_digits {bytes : List UInt8} {c : Char} (hc : Text.isPlain c = false) :
    c ∉ Hex.digits bytes :=
  Text.not_mem_of_isPlain (Hex.isPlain_of_mem_digits bytes) hc

lemma not_mem_text {op : Opcode} {c : Char} (hc : Text.isPlain c = false) : c ∉ op.text.toList :=
  Text.not_mem_of_isPlain (fun _ => Opcode.isPlain_of_mem_text) hc

/-- A token ends its opcode at the underscore, so both parts can be read off it. -/
lemma spelled_injective : Function.Injective spelled := by
  rintro ⟨a, bytes⟩ ⟨b, bytes'⟩ h
  have hunderscore : Text.isPlain '_' = false := by decide
  have hlist := congrArg String.toList h
  simp only [toList_spelled] at hlist
  -- The opcode is what stands before the first underscore.
  have hcut (op : Opcode) (rest : List UInt8) :
      (op.text.toList ++ if rest.isEmpty then [] else '_' :: Hex.digits rest).takeWhile (· ≠ '_')
        = op.text.toList := by
    rw [List.takeWhile_append_of_pos]
    · split_ifs <;> simp
    · intro c hc
      simpa using Text.ne_of_isPlain (Opcode.isPlain_of_mem_text hc) hunderscore
  have hop : a = b := by
    refine Opcode.text_injective (String.toList_injective ?_)
    rw [← hcut a bytes, hlist, hcut b bytes']
  subst hop
  rw [List.append_right_inj] at hlist
  have hbytes : bytes = bytes' := by
    cases bytes <;> cases bytes' <;> simp at hlist ⊢
    simpa using Hex.digits_injective hlist
  rw [hbytes]

/-- A space tells two tokens apart. -/
lemma space_not_mem_token (options : Options) (i : Instruction) : ' ' ∉ (token options i).toList := by
  have hspace : Text.isPlain ' ' = false := by decide
  rw [token_eq_spelled, toList_spelled]
  split_ifs <;> simp [not_mem_text hspace, not_mem_digits hspace]

/-- **Windows have the same tokens if they are alike.** -/
lemma map_token_eq_iff (options : Options) (v w : List Instruction) :
    v.map (token options) = w.map (token options) ↔ Alike options v w := by
  cases h : options.includeOperands with
  | true =>
      have htoken : token options = spelled ∘ fun i => (i.opcode, i.operand) := by
        funext i
        simp [token_eq_spelled, h]
      rw [htoken, ← List.map_map, ← List.map_map, (List.map_injective_iff.mpr spelled_injective).eq_iff]
      simp [Alike, h]
  | false =>
      have htoken : token options = (fun op => spelled (op, [])) ∘ (·.opcode) := by
        funext i
        rw [token_eq_spelled, h, if_neg Bool.false_ne_true, Function.comp_apply]
      have hbare : Function.Injective fun op => spelled (op, []) := by
        intro a b hab
        exact (Prod.mk.inj (spelled_injective hab)).1
      rw [htoken, ← List.map_map, ← List.map_map, (List.map_injective_iff.mpr hbare).eq_iff]
      simp [Alike, h]

/-- **No two sequences share a text.** -/
lemma key_eq_key_iff (options : Options) {v w : List Instruction} (hv : v ≠ []) (hw : w ≠ []) :
    key options v = key options w ↔ Alike options v w := by
  rw [← map_token_eq_iff]
  constructor
  · intro h
    have hsplit (u : List Instruction) (hu : u ≠ []) :
        (key options u).toList.splitOn ' ' = (u.map (token options)).map String.toList := by
      rw [key, String.toList_intercalate]
      refine List.splitOn_intercalate ' ' ?_ (by simpa using hu)
      simpa using fun i _ => space_not_mem_token options i
    have hlists := hsplit v hv
    rw [h, hsplit w hw] at hlists
    exact (List.map_injective_iff.mpr (fun _ _ => String.toList_injective) hlists).symm
  · intro h
    rw [key, key, h]

/-! ## Windows -/

/-- The windows start at all positions from which enough instructions follow. -/
lemma windows_eq_map {α : Type} {n : Nat} (hn : 1 ≤ n) (l : List α) :
    windows n l = (List.range (l.length + 1 - n)).map fun p => (l.drop p).take n := by
  induction l with
  | nil =>
      have : 0 + 1 - n = 0 := by omega
      simp [windows, this]
  | cons x rest ih =>
      rw [windows]
      split_ifs with hfull
      · have hlen : (x :: rest).length + 1 - n = rest.length + 1 - n + 1 := by
          simp at hfull ⊢
          omega
        rw [hlen, List.range_succ_eq_map, ih]
        simp [Function.comp_def]
      · have hlen : (x :: rest).length + 1 - n = 0 := by
          simp at hfull ⊢
          omega
        rw [hlen]
        rfl

/-! ## Counts -/

/-- Every key is counted once. -/
lemma sum_tally (keys : List String) : ((tally keys).map Prod.snd).sum = keys.length := by
  fun_induction tally keys with
  | case1 => rfl
  | case2 rest y count more heq ih =>
      rw [heq] at ih
      simp only [List.map_cons, List.sum_cons, List.length_cons] at ih ⊢
      omega
  | case3 x rest y count more heq hne ih =>
      rw [heq] at ih
      simp only [List.map_cons, List.sum_cons, List.length_cons] at ih ⊢
      omega
  | case4 x rest heq ih =>
      rw [heq] at ih
      simp only [List.map_nil, List.map_cons, List.sum_nil, List.sum_cons, List.length_cons] at ih ⊢
      omega

/-- The entries count the texts: each once, in order, with its number. -/
structure Tallied (keys : List String) (entries : List (String × Nat)) : Prop where
  ascending : (entries.map Prod.fst).Pairwise (· < ·)
  mem_iff : ∀ k c, (k, c) ∈ entries ↔ 0 < c ∧ keys.count k = c

/-- A smaller text than all that are counted is a new one. -/
lemma Tallied.cons_new {keys : List String} {entries : List (String × Nat)} (h : Tallied keys entries)
    {x : String} (hlt : ∀ y ∈ entries.map Prod.fst, x < y) :
    Tallied (x :: keys) ((x, 1) :: entries) := by
  have hentries (c : Nat) : (x, c) ∉ entries := fun hc =>
    lt_irrefl x (hlt x (List.mem_map_of_mem hc))
  have hnew : keys.count x = 0 := by
    by_contra hcount
    exact hentries _ ((h.mem_iff x _).mpr ⟨Nat.pos_of_ne_zero hcount, rfl⟩)
  refine ⟨List.pairwise_cons.mpr ⟨hlt, h.ascending⟩, ?_⟩
  intro k c
  by_cases hk : k = x
  · subst hk
    simp [hentries, hnew]
    omega
  · simp [hk, h.mem_iff, List.count_cons_of_ne (Ne.symm hk)]

/-- The first text once more raises its number. -/
lemma Tallied.cons_again {keys : List String} {y : String} {n : Nat} {entries : List (String × Nat)}
    (h : Tallied keys ((y, n) :: entries)) : Tallied (y :: keys) ((y, n + 1) :: entries) := by
  obtain ⟨hlt, -⟩ := List.pairwise_cons.mp h.ascending
  have hentries (c : Nat) : (y, c) ∉ entries := fun hc =>
    lt_irrefl y (hlt y (List.mem_map_of_mem hc))
  have hcount : keys.count y = n := ((h.mem_iff y n).mp List.mem_cons_self).2
  refine ⟨h.ascending, ?_⟩
  intro k c
  by_cases hk : k = y
  · subst hk
    simp [hentries, hcount]
    omega
  · have hmem := h.mem_iff k c
    simp only [List.mem_cons, Prod.mk.injEq, hk, false_and, false_or] at hmem
    simp [hk, hmem, List.count_cons_of_ne (Ne.symm hk)]

lemma Tallied.mem_keys {keys : List String} {entries : List (String × Nat)} (h : Tallied keys entries)
    {k : String} (hk : k ∈ entries.map Prod.fst) : k ∈ keys := by
  obtain ⟨⟨k, c⟩, hmem, rfl⟩ := List.mem_map.mp hk
  obtain ⟨hpos, hcount⟩ := (h.mem_iff k c).mp hmem
  exact List.count_pos_iff.mp (hcount ▸ hpos)

/-- **Sorted texts are tallied each once, with their number.** -/
lemma tallied_tally {keys : List String} (hsorted : keys.Pairwise (· ≤ ·)) :
    Tallied keys (tally keys) := by
  fun_induction tally keys with
  | case1 => exact ⟨List.Pairwise.nil, by simp; omega⟩
  | case2 rest y n more heq ih => exact (heq ▸ ih hsorted.of_cons).cons_again
  | case3 x rest y n more heq hne ih =>
      have hrest : Tallied rest ((y, n) :: more) := heq ▸ ih hsorted.of_cons
      have hle : x ≤ y := List.rel_of_pairwise_cons hsorted (hrest.mem_keys List.mem_cons_self)
      have hxy : x < y := lt_of_le_of_ne hle hne
      have hmore := (List.pairwise_cons.mp hrest.ascending).1
      refine hrest.cons_new (List.forall_mem_cons.mpr ⟨hxy, ?_⟩)
      intro k hk
      exact hxy.trans (hmore k hk)
  | case4 x rest heq ih =>
      have hrest : Tallied rest [] := heq ▸ ih hsorted.of_cons
      exact hrest.cons_new (by simp)

/-! ## The report -/

lemma precedes_iff {a b : String × Nat} :
    precedes a b = true ↔ b.2 < a.2 ∨ a.2 = b.2 ∧ a.1 ≤ b.1 := by
  rw [precedes, Bool.or_eq_true, decide_eq_true_iff, Bool.and_eq_true, decide_eq_true_iff,
    decide_eq_true_iff]

/-- Sorting puts frequent keys first, and equally frequent ones in order. -/
lemma pairwise_mergeSort_precedes (entries : List (String × Nat)) :
    (entries.mergeSort precedes).Pairwise fun a b => b.2 < a.2 ∨ a.2 = b.2 ∧ a.1 ≤ b.1 := by
  refine (List.pairwise_mergeSort ?_ ?_ entries).imp precedes_iff.mp
  · intro a b c hab hbc
    rw [precedes_iff] at hab hbc ⊢
    rcases hab with hab | ⟨hab, hab'⟩ <;> rcases hbc with hbc | ⟨hbc, hbc'⟩
    · exact .inl (hbc.trans hab)
    · exact .inl (hbc ▸ hab)
    · exact .inl (hab ▸ hbc)
    · exact .inr ⟨hab.trans hbc, hab'.trans hbc'⟩
  · intro a b
    rw [Bool.or_eq_true, precedes_iff, precedes_iff]
    rcases lt_trichotomy a.2 b.2 with h | h | h
    · exact .inr (.inl h)
    · exact (le_total a.1 b.1).imp (fun h' => .inr ⟨h, h'⟩) (fun h' => .inr ⟨h.symm, h'⟩)
    · exact .inl (.inl h)

section
variable {options : Options} {instructions : List Instruction}

/-- The keys are those of the windows, position by position. -/
lemma keys_eq_map (hn : 1 ≤ options.n) (hlen : options.n ≤ instructions.length) :
    (windows options.n instructions).map (key options) =
      (positions options instructions).map fun p => key options (windowAt options instructions p) := by
  have : instructions.length + 1 - options.n = instructions.length - options.n + 1 := by omega
  rw [windows_eq_map hn, List.map_map, this]
  rfl

lemma length_windowAt (hlen : options.n ≤ instructions.length) {p : Nat}
    (hp : p ∈ positions options instructions) :
    (windowAt options instructions p).length = options.n := by
  rw [positions, List.mem_range] at hp
  rw [windowAt, List.length_take, List.length_drop]
  omega

/-- A key is counted as often as windows are alike. -/
lemma count_key_eq (hn : 1 ≤ options.n) (hlen : options.n ≤ instructions.length) {p : Nat}
    (hp : p ∈ positions options instructions) :
    ((windows options.n instructions).map (key options)).count
        (key options (windowAt options instructions p)) =
      (positions options instructions).countP fun q =>
        Alike options (windowAt options instructions q) (windowAt options instructions p) := by
  rw [keys_eq_map hn hlen, List.count_eq_countP, List.countP_map]
  refine List.countP_congr ?_
  intro q hq
  have hne {r : Nat} (hr : r ∈ positions options instructions) : windowAt options instructions r ≠ [] :=
    List.ne_nil_of_length_pos (by rw [length_windowAt hlen hr]; omega)
  simp [key_eq_key_iff options (hne hq) (hne hp)]

lemma count_eq_mergeSort (hn : 1 ≤ options.n) (hlen : options.n ≤ instructions.length) :
    ∃ entries, Tallied ((windows options.n instructions).map (key options)) entries ∧
      (entries.map Prod.snd).sum = instructions.length - options.n + 1 ∧
      count options instructions = entries.mergeSort precedes := by
  have hperm := List.mergeSort_perm ((windows options.n instructions).map (key options)) (· ≤ ·)
  obtain ⟨hascending, hmem⟩ := tallied_tally (List.pairwise_mergeSort' (· ≤ ·)
    ((windows options.n instructions).map (key options)))
  refine ⟨_, ⟨hascending, fun k c => ?_⟩, ?_, ?_⟩
  · rw [hmem, hperm.count_eq]
  · rw [sum_tally, hperm.length_eq, keys_eq_map hn hlen, List.length_map, positions, List.length_range]
  · have hshort : isTooShort options instructions = false := by
      simp [isTooShort]
      omega
    simp [count, hshort]

end

/-- **Every sequence is counted, by its opcodes or by its opcodes and operands, under a text of its
own.** -/
theorem count_enumerates_sequences (options : Options) (instructions : List Instruction)
    (hn : 1 ≤ options.n) (hlen : options.n ≤ instructions.length) :
    ((count options instructions).map Prod.fst).Nodup ∧
      (∀ entry ∈ count options instructions, 0 < entry.2) ∧
      ((count options instructions).map Prod.snd).sum = instructions.length - options.n + 1 ∧
      (count options instructions).Pairwise (fun a b => b.2 < a.2 ∨ a.2 = b.2 ∧ a.1 < b.1) ∧
      (∀ entry, entry ∈ count options instructions ↔ ∃ p ∈ positions options instructions,
        entry = (key options (windowAt options instructions p),
          (positions options instructions).countP fun q =>
            Alike options (windowAt options instructions q) (windowAt options instructions p))) ∧
      ∀ v w : List Instruction, v.length = options.n → w.length = options.n →
        (key options v = key options w ↔ Alike options v w) := by
  obtain ⟨entries, htallied, hsum, hcount⟩ := count_eq_mergeSort hn hlen
  have hperm := List.mergeSort_perm entries precedes
  have hnodup : (entries.map Prod.fst).Nodup := htallied.ascending.imp fun h => ne_of_lt h
  have hdistinct : ((count options instructions).map Prod.fst).Nodup :=
    hcount ▸ (hperm.map Prod.fst).nodup_iff.mpr hnodup
  have hmem (k : String) (c : Nat) : (k, c) ∈ count options instructions ↔
      0 < c ∧ ((windows options.n instructions).map (key options)).count k = c := by
    rw [hcount, hperm.mem_iff, htallied.mem_iff]
  refine ⟨hdistinct, ?_, ?_, ?_, ?_, ?_⟩
  · rintro ⟨k, c⟩ hentry
    exact ((hmem k c).mp hentry).1
  · rw [hcount, (hperm.map Prod.snd).sum_eq, hsum]
  · -- Equally frequent texts are in order, and they differ.
    have hsorted := pairwise_mergeSort_precedes entries
    rw [← hcount] at hsorted
    refine hsorted.imp₂ ?_ (List.pairwise_map.mp hdistinct)
    rintro a b (h | ⟨h, hle⟩) hne
    · exact .inl h
    · exact .inr ⟨h, lt_of_le_of_ne hle hne⟩
  · rintro ⟨k, c⟩
    rw [hmem]
    constructor
    · rintro ⟨hpos, rfl⟩
      have hk := List.count_pos_iff.mp hpos
      rw [keys_eq_map hn hlen, List.mem_map] at hk
      obtain ⟨p, hp, rfl⟩ := hk
      exact ⟨p, hp, by rw [count_key_eq hn hlen hp]⟩
    · rintro ⟨p, hp, heq⟩
      obtain ⟨rfl, rfl⟩ := Prod.mk.inj heq
      refine ⟨List.countP_pos_iff.mpr ⟨p, hp, ?_⟩, count_key_eq hn hlen hp⟩
      simp [Alike]
  · intro v w hv hw
    exact key_eq_key_iff options (List.ne_nil_of_length_pos (by omega))
      (List.ne_nil_of_length_pos (by omega))

/-- Two pushes of different literals, each before an addition. -/
def sampleCode : List Instruction :=
  [⟨0, ⟨0x60⟩, [0x01]⟩, ⟨2, ⟨0x01⟩, []⟩, ⟨3, ⟨0x60⟩, [0x02]⟩, ⟨5, ⟨0x01⟩, []⟩]

/-- The pairs that differ in an operand only are counted together, or apart. -/
theorem count_enumerates_sequences_sample :
    ("PUSH1 ADD", 2) ∈ count ⟨2, false⟩ sampleCode ∧
      ("PUSH1_01 ADD", 1) ∈ count ⟨2, true⟩ sampleCode ∧
      ((count ⟨2, true⟩ sampleCode).map Prod.snd).sum = 3 := by
  have hbare := count_enumerates_sequences ⟨2, false⟩ sampleCode (by decide) (by decide)
  have hfull := count_enumerates_sequences ⟨2, true⟩ sampleCode (by decide) (by decide)
  refine ⟨(hbare.2.2.2.2.1 _).mpr ⟨0, by decide, ?_⟩, (hfull.2.2.2.2.1 _).mpr ⟨0, by decide, ?_⟩,
    hfull.2.2.1⟩
  · decide +kernel
  · decide +kernel

end BytecodeFlow.Report.Ngram
