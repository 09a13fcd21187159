import Mathlib
import BytecodeFlow.Disassembly.Descent
import BytecodeFlow.Proofs.Sweep

/-!
# The descent gives every byte to one instruction at most

The descent keeps a cell for every byte of the image.  Its runs start wherever a jump leads, in any
order, and possibly at a byte that another run has read as part of an operand.  What keeps them
apart is the invariant of this file.

**The invariant.**  `Laid` says that a head holds the instruction that is decoded there, that the bytes
of its operand are marked as such, and that no other byte is.  Two instructions then share no byte
(`Laid.finish_le`).

**One step.**  An instruction that is neither met again nor refused finds all of its bytes free
(`Laid.free`), so giving them to it keeps the invariant (`Laid.claim`), and adds this instruction to
those read before and no other (`has_claim`).  Runs and the descent repeat this step
(`Laid.follow`, `Laid.explore`).

**The listing.**  The heads, from front to back, are a list of instructions each of which ends before
the next one starts (`Laid.pairwise_listed`), so they cover as many bytes as they have together, and
these are bytes of the image (`coveredBytes_add_le`).
-/

namespace BytecodeFlow.Disassembly

variable {image : Image} {cells : Array Cell} {i j : Instruction} {k offset : Nat}

/-! ## Cells -/

/-- Whether an instruction has been read. -/
def Has (cells : Array Cell) (i : Instruction) : Prop :=
  cells[i.offset]? = some (.head i)

/-- **What holds of the cells between any two steps of the descent.** -/
structure Laid (image : Image) (cells : Array Cell) : Prop where
  size_eq : cells.size = image.size
  decoded : ∀ (k : Nat) (i : Instruction), cells[k]? = some (.head i) → decodeAt? image k = some i
  owns : ∀ i, Has cells i → ∀ k, i.offset < k → k < i.finish → cells[k]? = some .inside
  owned : ∀ k : Nat, cells[k]? = some .inside → ∃ i, Has cells i ∧ i.offset < k ∧ k < i.finish

lemma isInside_iff : isInside cells k = true ↔ cells[k]? = some .inside := by
  simp [isInside]

lemma isHeadAt_iff : isHeadAt cells k = true ↔ ∃ i, cells[k]? = some (.head i) := by
  cases hcell : cells[k]? with
  | none => simp [isHeadAt, hcell]
  | some cell => cases cell <;> simp [isHeadAt, hcell, Cell.isHead]

lemma overlaps_iff {finish : Nat} :
    overlaps cells offset finish = true ↔
      cells[offset]? = some .inside ∨ ∃ k i, offset < k ∧ k < finish ∧ cells[k]? = some (.head i) := by
  rw [overlaps, Bool.or_eq_true, isInside_iff, Array.any_eq_true]
  refine or_congr_right ⟨?_, ?_⟩
  · rintro ⟨m, hm, hhead⟩
    rw [Array.getElem_extract] at hhead
    rw [Array.size_extract] at hm
    have hlt : offset + 1 + m < cells.size := by omega
    have hat : isHeadAt cells (offset + 1 + m) = true := by simpa [isHeadAt, hlt] using hhead
    obtain ⟨i, hi⟩ := isHeadAt_iff.mp hat
    exact ⟨offset + 1 + m, i, by omega, by omega, hi⟩
  · rintro ⟨k, i, hlow, hhigh, hhead⟩
    obtain ⟨hlt, hcell⟩ := Array.getElem?_eq_some_iff.mp hhead
    refine ⟨k - (offset + 1), by rw [Array.size_extract]; omega, ?_⟩
    rw [Array.getElem_extract]
    simp only [Nat.add_sub_cancel' hlow, hcell, Cell.isHead]

lemma getElem?_foldl_inside (start length : Nat) (cells : Array Cell)
    (hsize : start + length ≤ cells.size) :
    ((List.range' start length).foldl (fun cells k => cells.setIfInBounds k .inside) cells)[k]?
      = if start ≤ k ∧ k < start + length then some .inside else cells[k]? := by
  induction length generalizing start cells with
  | zero => rw [if_neg (by omega)]; rfl
  | succ length ih =>
      rw [List.range'_succ, List.foldl_cons, ih _ _ (by rw [Array.size_setIfInBounds]; omega),
        Array.getElem?_setIfInBounds]
      split_ifs <;> first | rfl | omega

lemma getElem?_claim (hsize : i.finish ≤ cells.size) :
    (claim cells i)[k]? =
      if k = i.offset then some (.head i)
      else if i.offset < k ∧ k < i.finish then some .inside else cells[k]? := by
  have hfinish : i.finish = i.offset + 1 + i.operand.length := by
    rw [Instruction.finish, Instruction.size, Nat.add_assoc]
  rw [claim, getElem?_foldl_inside _ _ _ (by rw [Array.size_setIfInBounds]; omega),
    Array.getElem?_setIfInBounds]
  split_ifs <;> first | rfl | omega

lemma size_claim (cells : Array Cell) (i : Instruction) : (claim cells i).size = cells.size := by
  have hfold : ∀ (ks : List Nat) (cells : Array Cell),
      (ks.foldl (fun cells k => cells.setIfInBounds k .inside) cells).size = cells.size := by
    intro ks
    induction ks with
    | nil => intro cells; rfl
    | cons k ks ih => intro cells; rw [List.foldl_cons, ih, Array.size_setIfInBounds]
  rw [claim, hfold, Array.size_setIfInBounds]

section Claim

variable (hsize : i.finish ≤ cells.size)
  (hfree : ∀ k, i.offset ≤ k → k < i.finish → cells[k]? = some .free)

include hsize hfree

/-- **Claiming free bytes adds one instruction** to those that have been read. -/
lemma has_claim : Has (claim cells i) j ↔ Has cells j ∨ j = i := by
  rw [Has, getElem?_claim hsize]
  split_ifs with hhead hinside
  · constructor
    · intro h
      exact Or.inr (by simpa using h.symm)
    · rintro (hj | rfl)
      · have hat := hfree j.offset (by omega) (hhead ▸ i.offset_lt_finish)
        rw [hj] at hat
        simp at hat
      · rfl
  · constructor
    · intro h
      simp at h
    · rintro (hj | rfl)
      · have hat := hfree j.offset (by omega) hinside.2
        rw [hj] at hat
        simp at hat
      · exact absurd rfl hhead
  · constructor
    · exact Or.inl
    · rintro (hj | rfl)
      · exact hj
      · exact absurd rfl hhead

lemma inside_claim :
    (claim cells i)[k]? = some .inside ↔
      cells[k]? = some .inside ∨ i.offset < k ∧ k < i.finish := by
  rw [getElem?_claim hsize]
  split_ifs with hhead hinside
  · subst hhead
    have hat := hfree i.offset (Nat.le_refl _) i.offset_lt_finish
    simp [hat]
  · simp [hinside]
  · simp [hinside]

end Claim

namespace Laid

variable (h : Laid image cells)

include h

lemma has_of_head (hk : cells[k]? = some (.head i)) : Has cells i ∧ i.offset = k := by
  have hoffset := offset_of_decodeAt? (h.decoded k i hk)
  exact ⟨by rw [Has, hoffset, hk], hoffset⟩

lemma decodeAt?_eq (hi : Has cells i) : decodeAt? image i.offset = some i :=
  h.decoded _ _ hi

/-- **Two instructions share no byte**: the first ends before the second starts. -/
lemma finish_le (hi : Has cells i) (hj : Has cells j) (hlt : i.offset < j.offset) :
    i.finish ≤ j.offset := by
  by_contra hover
  have hinside := h.owns i hi j.offset hlt (Nat.not_le.mp hover)
  rw [hj] at hinside
  simp at hinside

lemma eq_of_finish_eq (hi : Has cells i) (hj : Has cells j) (heq : i.finish = j.finish) : i = j := by
  have hi' := i.offset_lt_finish
  have hj' := j.offset_lt_finish
  rcases Nat.lt_trichotomy i.offset j.offset with hlt | hsame | hgt
  · have := h.finish_le hi hj hlt
    omega
  · rw [Has, hsame, hj] at hi
    simpa using hi.symm
  · have := h.finish_le hj hi hgt
    omega

/-- **An instruction that is not refused finds all of its bytes free.** -/
lemma free (hi : decodeAt? image offset = some i) (hnew : isHeadAt cells i.offset = false)
    (hclear : overlaps cells i.offset i.finish = false) :
    ∀ k, i.offset ≤ k → k < i.finish → cells[k]? = some .free := by
  intro k hlow hhigh
  have hlt : k < cells.size := by
    have := finish_le_of_decodeAt? hi
    have := h.size_eq
    omega
  rw [← Bool.not_eq_true, isHeadAt_iff] at hnew
  rw [← Bool.not_eq_true, overlaps_iff, not_or] at hclear
  -- a byte inside another instruction belongs to one that starts before, at or behind this one
  have hhead : ∀ j, cells[k]? ≠ some (.head j) := by
    intro j hj
    rcases Nat.eq_or_lt_of_le hlow with rfl | hlow
    · exact hnew ⟨j, hj⟩
    · exact hclear.2 ⟨k, j, hlow, hhigh, hj⟩
  have hinside : cells[k]? ≠ some .inside := by
    intro hk
    obtain ⟨j, hj, hbefore, hbehind⟩ := h.owned k hk
    rcases Nat.lt_trichotomy j.offset i.offset with hlt | hsame | hgt
    · exact hclear.1 (h.owns j hj i.offset hlt (by omega))
    · exact hnew ⟨j, hsame ▸ hj⟩
    · exact hclear.2 ⟨j.offset, j, hgt, by omega, hj⟩
  rw [Array.getElem?_eq_getElem hlt] at hhead hinside ⊢
  cases hcell : cells[k] with
  | free => rfl
  | head j => exact absurd (congrArg some hcell) (hhead j)
  | inside => exact absurd (congrArg some hcell) hinside

/-- **Giving free bytes to the instruction that is decoded there keeps the invariant.** -/
lemma claim (hi : decodeAt? image offset = some i)
    (hfree : ∀ k, i.offset ≤ k → k < i.finish → cells[k]? = some .free) :
    Laid image (claim cells i) := by
  have hsize : i.finish ≤ cells.size := h.size_eq ▸ finish_le_of_decodeAt? hi
  refine ⟨by rw [size_claim, h.size_eq], fun k j hk => ?_, fun j hj k hlow hhigh => ?_,
    fun k hk => ?_⟩
  · rw [getElem?_claim hsize] at hk
    split_ifs at hk with hhead hinside
    · obtain rfl : i = j := by simpa using hk
      rw [hhead, offset_of_decodeAt? hi, hi]
    · simp at hk
    · exact h.decoded k j hk
  · rw [inside_claim hsize hfree]
    rcases (has_claim hsize hfree).mp hj with hj | rfl
    · exact Or.inl (h.owns j hj k hlow hhigh)
    · exact Or.inr ⟨hlow, hhigh⟩
  · rcases (inside_claim hsize hfree).mp hk with hk | hk
    · obtain ⟨j, hj, hbounds⟩ := h.owned k hk
      exact ⟨j, (has_claim hsize hfree).mpr (Or.inl hj), hbounds⟩
    · exact ⟨i, (has_claim hsize hfree).mpr (Or.inr rfl), hk⟩

end Laid

/-! ## Runs -/

lemma laid_start (image : Image) : Laid image (Array.replicate image.size .free) := by
  have hcell : ∀ (k : Nat) (cell : Cell),
      (Array.replicate image.size Cell.free)[k]? = some cell → cell = .free := by
    intro k cell hk
    simp [Array.getElem?_replicate] at hk
    exact hk.2.symm
  refine ⟨by simp, fun k i hk => ?_, fun i hi => ?_, fun k hk => ?_⟩
  · exact absurd (hcell k _ hk) (by simp)
  · exact absurd (hcell _ _ hi) (by simp)
  · exact absurd (hcell k _ hk) (by simp)

/-- **An instruction that a run reads on** keeps the invariant, and is the only one that is added. -/
lemma Laid.extend {run : Run} (h : Laid image run.cells) (hi : decodeAt? image offset = some i)
    (hnew : ¬isHeadAt run.cells i.offset = true) (hclear : ¬overlaps run.cells i.offset i.finish = true)
    (previous : Option Instruction) :
    Laid image (run.extend image previous i).cells ∧
      ∀ j, Has (run.extend image previous i).cells j ↔ Has run.cells j ∨ j = i := by
  have hfree := h.free hi (by simpa using hnew) (by simpa using hclear)
  exact ⟨h.claim hi hfree, fun j => has_claim (h.size_eq ▸ finish_le_of_decodeAt? hi) hfree⟩

/-- **A run keeps the invariant.** -/
lemma Laid.follow {run : Run} (h : Laid image run.cells) (previous : Option Instruction)
    (offset : Nat) : Laid image (Run.follow image run previous offset).cells := by
  fun_induction Run.follow image run previous offset with
  | case1 run previous offset i hi _ _ hnew => exact h
  | case2 run previous offset i hi _ _ hnew hover => exact h
  | case3 run previous offset i hi _ _ hnew hclear hhalts =>
      exact (h.extend hi hnew hclear previous).1
  | case4 run previous offset i hi _ _ hnew hclear hhalts ih =>
      exact ih (h.extend hi hnew hclear previous).1
  | case5 run previous offset hi => exact h

/-- **The descent keeps the invariant.** -/
lemma Laid.explore {survey : Survey} (h : Laid image survey.cells) (started : Array Bool)
    (queue : List Nat) : Laid image (explore image started survey queue).cells := by
  fun_induction Disassembly.explore image started survey queue with
  | case1 started survey => exact h
  | case2 started survey start rest hlt hdone ih => exact ih h
  | case3 started survey start rest hlt hdone started' hinside ih => exact ih h
  | case4 started survey start rest hlt hdone started' hinside run fresh ih =>
      exact ih (h.follow none start)
  | case5 started survey start rest hlt ih => exact ih h

/-! ## The listing -/

/-- The instructions that have been read, from front to back. -/
def listed (cells : Array Cell) : Array Instruction :=
  cells.filterMap Cell.instruction?

lemma instruction?_eq_some {cell : Cell} : cell.instruction? = some i ↔ cell = .head i := by
  cases cell <;> simp [Cell.instruction?]

namespace Laid

variable (h : Laid image cells)

include h

lemma mem_listed : i ∈ listed cells ↔ Has cells i := by
  simp only [listed, Array.mem_filterMap, instruction?_eq_some]
  constructor
  · rintro ⟨cell, hcell, rfl⟩
    obtain ⟨k, hk⟩ := Array.getElem?_of_mem hcell
    exact (h.has_of_head hk).1
  · intro hi
    exact ⟨_, Array.mem_of_getElem? hi, rfl⟩

/-- **Each instruction of the listing ends before the next one starts.** -/
lemma pairwise_listed : (listed cells).toList.Pairwise fun i j => i.finish ≤ j.offset := by
  rw [listed, Array.toList_filterMap, List.pairwise_filterMap, List.pairwise_iff_getElem]
  intro k m hk hm hlt i hi j hj
  rw [instruction?_eq_some, ← Option.some.injEq, ← List.getElem?_eq_getElem,
    Array.getElem?_toList] at hi hj
  obtain ⟨hi, rfl⟩ := h.has_of_head hi
  obtain ⟨hj, rfl⟩ := h.has_of_head hj
  exact h.finish_le hi hj hlt

lemma finish_le_of_mem (hi : i ∈ listed cells) : i.finish ≤ image.size :=
  finish_le_of_decodeAt? (h.decodeAt?_eq (h.mem_listed.mp hi))

end Laid

/-- Instructions that lie one behind the other between two bounds cover no more bytes than there are
between them. -/
lemma coveredBytes_add_le {instructions : List Instruction} {low high : Nat} (hbounds : low ≤ high)
    (horder : instructions.Pairwise fun i j => i.finish ≤ j.offset)
    (hlow : ∀ i ∈ instructions, low ≤ i.offset) (hhigh : ∀ i ∈ instructions, i.finish ≤ high) :
    low + coveredBytes instructions ≤ high := by
  induction instructions generalizing low with
  | nil => exact hbounds
  | cons i rest ih =>
      obtain ⟨hnext, horder⟩ := List.pairwise_cons.mp horder
      have hrest := ih (hhigh i List.mem_cons_self) horder hnext
        fun j hj => hhigh j (List.mem_cons_of_mem _ hj)
      have hfirst := hlow i List.mem_cons_self
      rw [coveredBytes]
      rw [Instruction.finish] at hrest
      omega

/-- The cells that the descent through an image ends with. -/
def surveyed (image : Image) : Array Cell :=
  (explore image (Array.replicate image.size false) ⟨Array.replicate image.size .free, #[]⟩ [0]).cells

lemma laid_surveyed (image : Image) : Laid image (surveyed image) :=
  (laid_start image).explore _ _

/-- The instructions that the descent through an image gives up. -/
def refusals (image : Image) : Array Instruction :=
  (explore image (Array.replicate image.size false) ⟨Array.replicate image.size .free, #[]⟩ [0]).refused

lemma descend_eq_ok (himage : image ≠ #[]) :
    descend image = .ok ⟨⟨listed (surveyed image),
      image.size - coveredBytes (listed (surveyed image)).toList⟩, (refusals image).toList⟩ := by
  have hsome : image.isEmpty = false := by simpa using himage
  rw [descend, hsome]
  rfl

lemma descend_eq (himage : image ≠ #[]) :
    ∃ refused, descend image = .ok ⟨⟨listed (surveyed image),
      image.size - coveredBytes (listed (surveyed image)).toList⟩, refused⟩ :=
  ⟨_, descend_eq_ok himage⟩

/-- A run from a start that has not been made yet, and is not inside an operand. -/
lemma explore_run {started : Array Bool} {survey : Survey} {start : Nat} {rest : List Nat} {run : Run}
    (hstart : started[start]? = some false) (hinside : isInside survey.cells start = false)
    (hrun : Run.follow image ⟨survey.cells, #[], none⟩ none start = run) :
    explore image started survey (start :: rest)
      = explore image (started.setIfInBounds start true)
          ⟨run.cells, survey.refused ++ run.refused.toArray⟩
          (rest ++ run.targets.toList.filter fun target =>
            (started.setIfInBounds start true)[target]? ≠ some true) := by
  obtain ⟨hlt, hfree⟩ := Array.getElem?_eq_some_iff.mp hstart
  have hset : started.setIfInBounds start true = started.set start true hlt := by
    rw [Array.setIfInBounds, dif_pos hlt]
  rw [explore, dif_pos hlt, hfree, if_neg Bool.false_ne_true]
  simp only [hinside, hrun, hset, Bool.false_eq_true, if_false]

/-- **The descent decodes no byte twice and accounts for every byte.**  It gives a result; each of its
instructions is the one decoded at its offset and lies in the image; they ascend and share no byte;
and the bytes they cover and the undecoded ones together are those of the image. -/
theorem descend_accounts (image : Image) (himage : image ≠ #[]) :
    ∃ reading, descend image = .ok reading ∧
      (∀ i ∈ reading.disassembly.instructions,
        decodeAt? image i.offset = some i ∧ i.finish ≤ image.size) ∧
      reading.disassembly.instructions.toList.Pairwise (fun i j => i.offset < j.offset) ∧
      reading.disassembly.instructions.toList.Pairwise (fun i j =>
        Disjoint (Finset.Ico i.offset i.finish) (Finset.Ico j.offset j.finish)) ∧
      reading.disassembly.undecoded
        + coveredBytes reading.disassembly.instructions.toList = image.size := by
  obtain ⟨refused, heq⟩ := descend_eq himage
  have hlaid := laid_surveyed image
  have hcovered : 0 + coveredBytes (listed (surveyed image)).toList ≤ image.size := by
    refine coveredBytes_add_le (Nat.zero_le _) hlaid.pairwise_listed (fun i _ => Nat.zero_le _) ?_
    exact fun i hi => hlaid.finish_le_of_mem (Array.mem_def.mpr hi)
  refine ⟨_, heq, fun i hi => ?_, ?_, ?_, by dsimp only; omega⟩
  · exact ⟨hlaid.decodeAt?_eq (hlaid.mem_listed.mp hi), hlaid.finish_le_of_mem hi⟩
  · refine hlaid.pairwise_listed.imp fun {i j} hij => ?_
    exact Nat.lt_of_lt_of_le i.offset_lt_finish hij
  · refine hlaid.pairwise_listed.imp fun {i j} hij => ?_
    rw [Finset.disjoint_left]
    intro k hk hk'
    rw [Finset.mem_Ico] at hk hk'
    omega

/-- Two jumps into one stretch of code: the run from `0x09` comes first, and the run from `0x07` gives
up the push that would cover it. -/
def overlapping : Image :=
  #[0x60, 0x09, 0x57, 0x60, 0x07, 0x56, 0x00, 0x5b, 0x61, 0x5b, 0x00, 0x00]

/-- The instructions of the sample from its beginning to the jump that halts. -/
def entryRun : List Instruction :=
  [⟨0, ⟨0x60⟩, [0x09]⟩, ⟨2, .jumpi, []⟩, ⟨3, ⟨0x60⟩, [0x07]⟩, ⟨5, .jump, []⟩]

/-- The instructions behind the target of the first jump. -/
def farRun : List Instruction :=
  [⟨9, .jumpdest, []⟩, ⟨10, .stop, []⟩]

/-- What is read of the sample: the target of the second jump is between the two runs. -/
def overlappingListing : Array Instruction :=
  (entryRun ++ ⟨7, .jumpdest, []⟩ :: farRun).toArray

/-- The cells of the sample, once some instructions have been read. -/
def overlappingCells (read : List Instruction) : Array Cell :=
  read.foldl claim (Array.replicate overlapping.size .free)

/-- There are three runs through the sample: from its beginning, and from the targets of the two jumps.  The
last one gives up the push at `0x08`. -/
lemma descend_overlapping :
    descend overlapping = .ok ⟨⟨overlappingListing, 3⟩, [⟨8, ⟨0x61⟩, [0x5b, 0x00]⟩]⟩ := by
  have hfirst : Run.follow overlapping ⟨overlappingCells [], #[], none⟩ none 0
      = ⟨overlappingCells entryRun, #[9, 7], none⟩ := by
    decide +kernel
  have hsecond : Run.follow overlapping ⟨overlappingCells entryRun, #[], none⟩ none 9
      = ⟨overlappingCells (entryRun ++ farRun), #[], none⟩ := by
    decide +kernel
  have hthird : Run.follow overlapping ⟨overlappingCells (entryRun ++ farRun), #[], none⟩ none 7
      = ⟨overlappingCells (entryRun ++ farRun ++ [⟨7, .jumpdest, []⟩]), #[],
        some ⟨8, ⟨0x61⟩, [0x5b, 0x00]⟩⟩ := by
    decide +kernel
  have hsurvey : explore overlapping (Array.replicate 12 false) ⟨overlappingCells [], #[]⟩ [0]
      = ⟨overlappingCells (entryRun ++ farRun ++ [⟨7, .jumpdest, []⟩]),
        #[⟨8, ⟨0x61⟩, [0x5b, 0x00]⟩]⟩ := by
    rw [explore_run (by decide) (by decide) hfirst]
    have hqueue : (#[9, 7] : Array Nat).toList.filter (fun target =>
        ((Array.replicate 12 false).setIfInBounds 0 true)[target]? ≠ some true) = [9, 7] := by decide
    rw [hqueue, List.nil_append, explore_run (by decide) (by decide) hsecond]
    simp only [List.filter_nil, List.append_nil]
    rw [explore_run (by decide) (by decide) hthird]
    simp [explore]
  have hcells : surveyed overlapping = overlappingCells (entryRun ++ farRun ++ [⟨7, .jumpdest, []⟩]) :=
    congrArg Survey.cells hsurvey
  have hrefused : refusals overlapping = #[⟨8, ⟨0x61⟩, [0x5b, 0x00]⟩] :=
    congrArg Survey.refused hsurvey
  have hlisted : listed (surveyed overlapping) = overlappingListing := by
    rw [hcells]
    decide
  have hcovered : coveredBytes overlappingListing.toList = 9 := by decide
  rw [descend_eq_ok (by decide), hlisted, hrefused, hcovered]
  rfl

/-- The runs through the sample read seven instructions that share no byte, and leave three of its bytes. -/
theorem descend_accounts_sample :
    overlapping ≠ #[] ∧
      descend overlapping = .ok ⟨⟨overlappingListing, 3⟩, [⟨8, ⟨0x61⟩, [0x5b, 0x00]⟩]⟩ ∧
      (∀ i ∈ overlappingListing,
        decodeAt? overlapping i.offset = some i ∧ i.finish ≤ overlapping.size) ∧
      overlappingListing.toList.Pairwise (fun i j =>
        Disjoint (Finset.Ico i.offset i.finish) (Finset.Ico j.offset j.finish)) ∧
      3 + coveredBytes overlappingListing.toList = 12 := by
  obtain ⟨reading, heq, hdecoded, _, hdisjoint, hsum⟩ := descend_accounts overlapping (by decide)
  obtain rfl := Except.ok.inj (heq.symm.trans descend_overlapping)
  exact ⟨by decide, heq, hdecoded, hdisjoint, hsum⟩

end BytecodeFlow.Disassembly
