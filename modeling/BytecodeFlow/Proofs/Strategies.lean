import Mathlib
import BytecodeFlow.Disassembly.Strategy
import BytecodeFlow.Proofs.Descent

/-!
# The two ways to read an image, compared

The sweep and the descent decode with the same function, so at an offset that both read they read the
same instruction.  They differ in where they start to read: the sweep only behind what it has read, the
descent also at the target of a jump.

**What both have in common.**  `Disassembly.Faithful` says that a disassembly consists of instructions of
the image that share no byte, that it accounts for all bytes, and that it is empty only if nothing can
be read at the front.  Both strategies give such a disassembly (`Strategy.faithful`).

**Where they part.**  The sweep goes on behind every instruction that it reads
(`mem_sweepFrom_of_finish`), so a run of the descent stays inside the sweep once it has started there.
A run that starts elsewhere starts at a byte that looks like a jump destination and is not one: it
belongs to an operand that no run has read yet.  `Disassembly.LandsOnStarts` rules this out, and
`descend_within_sweep_iff` shows that nothing less will do.
-/

namespace BytecodeFlow

open Relation

variable {image : Image} {i j : Instruction} {offset : Nat}

namespace Disassembly

/-! ## The listing of the sweep -/

lemma decodeAt?_of_mem_sweepFrom (h : i ∈ (sweepFrom image offset).1) :
    offset ≤ i.offset ∧ decodeAt? image i.offset = some i := by
  fun_induction sweepFrom image offset with
  | case1 offset first hfirst _ hlt rest left hrest ih =>
      rw [hrest] at ih
      have hoffset := offset_of_decodeAt? hfirst
      rcases List.mem_cons.mp h with rfl | hi
      · exact ⟨hoffset.ge, hoffset.symm ▸ hfirst⟩
      · obtain ⟨hle, hdecode⟩ := ih hi
        exact ⟨(hlt.trans_le hle).le, hdecode⟩
  | case2 offset _ => simp at h

lemma pairwise_sweepFrom (image : Image) (offset : Nat) :
    (sweepFrom image offset).1.Pairwise fun i j => i.finish ≤ j.offset := by
  fun_induction sweepFrom image offset with
  | case1 offset first hfirst _ _ rest left hrest ih =>
      rw [hrest] at ih
      refine List.pairwise_cons.mpr ⟨fun j hj => ?_, ih⟩
      exact (decodeAt?_of_mem_sweepFrom (by rwa [hrest])).1
  | case2 offset _ => exact List.Pairwise.nil

lemma mem_sweepFrom_of_decodeAt? (h : decodeAt? image offset = some i) :
    i ∈ (sweepFrom image offset).1 := by
  simp [sweepFrom_of_some h]

/-- **The sweep goes on behind every instruction that it reads.** -/
lemma mem_sweepFrom_of_finish (hi : i ∈ (sweepFrom image offset).1)
    (hj : decodeAt? image i.finish = some j) : j ∈ (sweepFrom image offset).1 := by
  fun_induction sweepFrom image offset with
  | case1 offset first hfirst _ _ rest left hrest ih =>
      rw [hrest] at ih
      rcases List.mem_cons.mp hi with rfl | hi
      · have hnext := mem_sweepFrom_of_decodeAt? hj
        rw [hrest] at hnext
        exact List.mem_cons_of_mem _ hnext
      · exact List.mem_cons_of_mem _ (ih hi)
  | case2 offset _ => simp at hi

/-- An instruction at whose offset the sweep reads is the one that it reads. -/
lemma mem_sweepFrom_of_offset_eq (hj : decodeAt? image j.offset = some j)
    (hread : ∃ k ∈ (sweepFrom image offset).1, k.offset = j.offset) :
    j ∈ (sweepFrom image offset).1 := by
  obtain ⟨k, hk, hoffset⟩ := hread
  have hsame := (decodeAt?_of_mem_sweepFrom hk).2
  rw [hoffset, hj] at hsame
  exact Option.some.inj hsame ▸ hk

/-! ## What both strategies give -/

/-- **What the disassembly of an image has to be**, however the image is read. -/
structure Faithful (image : Image) (d : Disassembly) : Prop where
  decoded : ∀ i ∈ d.instructions, decodeAt? image i.offset = some i
  apart : d.instructions.toList.Pairwise fun i j => i.finish ≤ j.offset
  undecoded : d.undecoded = image.size - d.decodedBytes
  empty_iff : d.instructions = #[] ↔ decodeAt? image 0 = none

lemma faithful_sweep (image : Image) :
    Faithful image ⟨(sweepFrom image 0).1.toArray, (sweepFrom image 0).2⟩ where
  decoded := fun i hi => (decodeAt?_of_mem_sweepFrom (by simpa using hi)).2
  apart := pairwise_sweepFrom image 0
  undecoded := by simpa [decodedBytes] using snd_sweepFrom image 0
  empty_iff := by
    cases hfirst : decodeAt? image 0 with
    | none => simp [sweepFrom_of_none hfirst]
    | some i => simp [sweepFrom_of_some hfirst]

lemma faithful_descend (image : Image) :
    Faithful image ⟨listed (surveyed image),
      image.size - coveredBytes (listed (surveyed image)).toList⟩ where
  decoded := fun i hi => (laid_surveyed image).decodeAt?_eq ((laid_surveyed image).mem_listed.mp hi)
  apart := (laid_surveyed image).pairwise_listed
  undecoded := rfl
  empty_iff := by
    obtain ⟨started, h⟩ := explored_surveyed image
    rw [Array.eq_empty_iff_forall_not_mem]
    constructor
    · intro hnone
      by_contra hsome
      obtain ⟨i, hi⟩ := Option.ne_none_iff_exists'.mp hsome
      obtain ⟨j, hj, _⟩ := h.first hi
      exact hnone j (h.laid.mem_listed.mpr hj)
    · intro hnone j hj
      obtain ⟨first, hfirst, hzero, _⟩ := h.rooted j (h.laid.mem_listed.mp hj)
      have hdecode := h.laid.decodeAt?_eq hfirst
      rw [hzero, hnone] at hdecode
      cases hdecode

namespace Faithful

variable {d : Disassembly}

lemma decodedBytes_le (h : Faithful image d) : d.decodedBytes ≤ image.size := by
  have hcovered := coveredBytes_add_le (Nat.zero_le image.size) h.apart (fun _ _ => Nat.zero_le _)
    fun i hi => finish_le_of_decodeAt? (h.decoded i (Array.mem_def.mpr hi))
  rwa [Nat.zero_add] at hcovered

/-- **Every byte is covered or counted as undecoded.** -/
lemma decodedBytes_add (h : Faithful image d) : d.decodedBytes + d.undecoded = image.size := by
  rw [h.undecoded, Nat.add_sub_cancel' h.decodedBytes_le]

lemma offset_lt (h : Faithful image d) :
    d.instructions.toList.Pairwise fun i j => i.offset < j.offset :=
  h.apart.imp fun {i _} hij => i.offset_lt_finish.trans_le hij

/-- No instruction starts inside another one. -/
lemma not_inside (h : Faithful image d) (hi : i ∈ d.instructions) (hj : j ∈ d.instructions) :
    i.offset ≤ j.offset ∨ j.finish ≤ i.offset := by
  obtain ⟨m, hm, rfl⟩ := Array.mem_iff_getElem.mp hi
  obtain ⟨n, hn, rfl⟩ := Array.mem_iff_getElem.mp hj
  rcases Nat.lt_trichotomy m n with hlt | rfl | hgt
  · have hapart := List.pairwise_iff_getElem.mp h.apart m n hm hn hlt
    exact Or.inl (d.instructions[m].offset_lt_finish.le.trans hapart)
  · exact Or.inl le_rfl
  · exact Or.inr (List.pairwise_iff_getElem.mp h.apart n m hn hm hgt)

end Faithful

end Disassembly

namespace Strategy

open Disassembly

lemma disassemble_linear (himage : image ≠ #[]) :
    linear.disassemble image = .ok ⟨(sweepFrom image 0).1.toArray, (sweepFrom image 0).2⟩ := by
  simp only [disassemble, read, sweep_eq himage]
  rfl

lemma disassemble_recursive (himage : image ≠ #[]) :
    recursive.disassemble image = .ok ⟨listed (surveyed image),
      image.size - coveredBytes (listed (surveyed image)).toList⟩ := by
  obtain ⟨refused, hdescend⟩ := descend_eq himage
  simp only [disassemble, read, hdescend]
  rfl

/-- **Both strategies read whatever is not empty, and read it faithfully.** -/
lemma faithful (s : Strategy) (himage : image ≠ #[]) :
    ∃ reading, s.read image = .ok reading ∧ Faithful image reading.disassembly := by
  cases s with
  | linear => exact ⟨_, by rw [read, sweep_eq himage]; rfl, faithful_sweep image⟩
  | recursive =>
      obtain ⟨refused, hdescend⟩ := descend_eq himage
      exact ⟨_, hdescend, faithful_descend image⟩

end Strategy

/-! ## The descent against the sweep -/

namespace Disassembly

/-- Whether every jump of a listing that goes to a jump destination, as far as the image tells, and at
whose target an instruction is listed, goes to the start of an instruction of another listing. -/
def LandsOnStarts (image : Image) (listing other : Array Instruction) : Prop :=
  ∀ position, ∀ j ∈ listing, staticTarget? listing position = some j.offset →
    image[j.offset]? = some Opcode.jumpdest.byte → ∃ k ∈ other, k.offset = j.offset

/-- An instruction that has been read is the one that its offset tells. -/
lemma Laid.has_of_decodeAt? {cells : Array Cell} (h : Laid image cells)
    (hi : decodeAt? image offset = some i) (hread : ∃ j, Has cells j ∧ j.offset = offset) :
    Has cells i := by
  obtain ⟨j, hj, rfl⟩ := hread
  have hsame := h.decodeAt?_eq hj
  rw [hi] at hsame
  exact Option.some.inj hsame ▸ hj

/-- **A run that starts in the sweep stays in it.** -/
lemma mem_sweepFrom_of_leads {cells : Array Cell} (h : Laid image cells)
    (hstarts : LandsOnStarts image (listed cells) (sweepFrom image 0).1.toArray)
    (hi : i ∈ (sweepFrom image 0).1) (hij : Leads image cells i j) : j ∈ (sweepFrom image 0).1 := by
  have hdecode : decodeAt? image j.offset = some j := h.decodeAt?_eq hij.2.1
  cases h.step_of_leads hij with
  | fall _ _ _ hnext => exact mem_sweepFrom_of_finish hi (hnext ▸ hdecode)
  | jump _ hj htarget hdest =>
      exact mem_sweepFrom_of_offset_eq hdecode (by simpa using hstarts _ j hj htarget hdest)

/-- **The descent stays inside the sweep exactly if its jumps land on instructions of the sweep.**  Both
give a result.  If the one is part of the other, no instruction of the descent starts inside an
instruction of the sweep, so that no byte of an operand is read as code. -/
theorem descend_within_sweep_iff (image : Image) (himage : image ≠ #[]) :
    ∃ d swept, Strategy.recursive.disassemble image = .ok d ∧
      Strategy.linear.disassemble image = .ok swept ∧
      ((∀ i ∈ d.instructions, i ∈ swept.instructions) ↔
        LandsOnStarts image d.instructions swept.instructions) ∧
      ((∀ i ∈ d.instructions, i ∈ swept.instructions) →
        ∀ i ∈ d.instructions, ∀ k ∈ swept.instructions,
          i.offset ≤ k.offset ∨ k.finish ≤ i.offset) := by
  obtain ⟨started, h⟩ := explored_surveyed image
  refine ⟨_, _, Strategy.disassemble_recursive himage, Strategy.disassemble_linear himage,
    ⟨fun hwithin => ?_, fun hstarts => ?_⟩, fun hwithin i hi k hk => ?_⟩
  · exact fun _ j hj _ _ => ⟨j, hwithin j hj, rfl⟩
  · intro j hj
    obtain ⟨first, hfirst, hzero, hsteps⟩ := h.rooted j (h.laid.mem_listed.mp hj)
    rw [List.mem_toArray]
    induction hsteps with
    | refl => exact mem_sweepFrom_of_decodeAt? (hzero ▸ h.laid.decodeAt?_eq hfirst)
    | tail _ hij ih =>
        exact mem_sweepFrom_of_leads h.laid hstarts (ih (h.laid.mem_listed.mpr hij.1)) hij
  · exact (faithful_sweep image).not_inside (hwithin i hi) hk

/-- A jump over a byte that is never read, to a jump destination. -/
def skipping : Image := #[0x60, 0x04, 0x56, 0xfe, 0x5b, 0x00]

/-- The only byte of the sample that looks like a jump destination is one. -/
theorem descend_within_sweep_skipping :
    skipping ≠ #[] ∧ ∃ d swept, Strategy.recursive.disassemble skipping = .ok d ∧
      Strategy.linear.disassemble skipping = .ok swept ∧
      ∀ i ∈ d.instructions, i ∈ swept.instructions := by
  obtain ⟨d, swept, hd, hswept, hiff, _⟩ := descend_within_sweep_iff skipping (by decide)
  have hlinear : Strategy.linear.disassemble skipping
      = .ok ⟨#[⟨0, ⟨0x60⟩, [0x04]⟩, ⟨2, .jump, []⟩, ⟨3, .invalid, []⟩, ⟨4, .jumpdest, []⟩,
        ⟨5, .stop, []⟩], 0⟩ := by cbv
  obtain rfl := Except.ok.inj (hswept.symm.trans hlinear)
  refine ⟨by decide, d, _, hd, hswept, hiff.mpr fun _ j _ _ hdest => ?_⟩
  have honly : ∀ t < skipping.size, skipping[t]? = some Opcode.jumpdest.byte → t = 4 := by decide
  have hoffset := honly j.offset (Array.getElem?_eq_some_iff.mp hdest).1 hdest
  exact ⟨⟨4, .jumpdest, []⟩, by simp, hoffset.symm⟩

/-- A jump into the operand of a push that no run reads. -/
def hiddenTarget : Image := #[0x60, 0x04, 0x56, 0x60, 0x5b, 0x00]

/-- No run through the sample comes to the push: the jump before it halts, and its byte is no jump
destination. -/
lemma not_rooted_hidden {cells : Array Cell} (h : Laid hiddenTarget cells)
    (hroot : Rooted hiddenTarget cells j) : j.offset ≠ 3 := by
  intro hoffset
  obtain ⟨first, _, hzero, hsteps⟩ := hroot
  rcases hsteps.cases_tail with rfl | ⟨i, _, hi, _, ⟨hgo, hnext⟩ | ⟨_, _, _, hlanding⟩⟩
  · omega
  · have honly : ∀ t < 3, ∀ i ∈ decodeAt? hiddenTarget t, i.finish = 3 → i.opcode = .jump := by
      decide
    have hbefore := i.offset_lt_finish
    have hjump := honly i.offset (by omega) i (h.decodeAt?_eq hi) (hnext.trans hoffset)
    simp [hjump, Opcode.halts] at hgo
  · have hdest := (landing?_eq_some_iff.mp hlanding).2.2
    rw [hoffset] at hdest
    exact absurd hdest (by decide)

/-- **The descent reads a byte of an operand as code.**  In the sample it reads a jump destination at
`0x04`, which is the operand of the push that the sweep reads at `0x03`. -/
theorem descend_reads_operand :
    ∃ d swept, Strategy.recursive.disassemble hiddenTarget = .ok d ∧
      Strategy.linear.disassemble hiddenTarget = .ok swept ∧
      ∃ i ∈ d.instructions, i ∉ swept.instructions ∧
        ∃ k ∈ swept.instructions, k.opcode.isPush = true ∧
          k.offset < i.offset ∧ i.offset < k.finish := by
  have hlinear : Strategy.linear.disassemble hiddenTarget
      = .ok ⟨#[⟨0, ⟨0x60⟩, [0x04]⟩, ⟨2, .jump, []⟩, ⟨3, ⟨0x60⟩, [0x5b]⟩, ⟨5, .stop, []⟩], 0⟩ := by
    cbv
  obtain ⟨started, h⟩ := explored_surveyed hiddenTarget
  have hpush : Has (surveyed hiddenTarget) ⟨0, ⟨0x60⟩, [0x04]⟩ :=
    h.laid.has_of_decodeAt? (by decide) (h.first (i := ⟨0, ⟨0x60⟩, [0x04]⟩) (by decide))
  have hjump : Has (surveyed hiddenTarget) ⟨2, .jump, []⟩ := by
    have hdecode : decodeAt? hiddenTarget 2 = some ⟨2, .jump, []⟩ := by decide
    refine h.laid.has_of_decodeAt? hdecode ?_
    have hsettled := (h.goesOn _ hpush).resolve_left (by decide +kernel)
    rcases hsettled with hread | hnone | ⟨j, hj, k, _, hlow, hhigh⟩
    · exact hread
    · exact absurd (hdecode.symm.trans hnone) (by simp)
    · -- a jump is a single byte, in which nothing else can start
      obtain rfl := Option.some.inj (hdecode.symm.trans hj)
      have hlow : 2 < k.offset := hlow
      have hhigh : k.offset < 3 := hhigh
      omega
  have hland : LandsOn hiddenTarget (surveyed hiddenTarget) ⟨2, .jump, []⟩ 4 :=
    ⟨_, hpush, rfl, by decide⟩
  have hdest : Has (surveyed hiddenTarget) ⟨4, .jumpdest, []⟩ := by
    refine h.laid.has_of_decodeAt? (decodeAt?_of_jumpdest (by decide)) ?_
    rcases h.landed hjump hland with hread | ⟨j, hj, hbefore, hbehind⟩
    · exact hread
    · -- only the push at `0x03` reaches beyond `0x04`
      have honly : ∀ t < 4, ∀ j ∈ decodeAt? hiddenTarget t, 4 < j.finish → t = 3 := by decide
      exact absurd (honly j.offset hbefore j (h.laid.decodeAt?_eq hj) hbehind)
        (not_rooted_hidden h.laid (h.rooted j hj))
  exact ⟨_, _, Strategy.disassemble_recursive (by decide), hlinear, ⟨4, .jumpdest, []⟩,
    h.laid.mem_listed.mpr hdest, by simp, ⟨3, ⟨0x60⟩, [0x5b]⟩, by simp, by decide, by decide,
    by decide⟩

end Disassembly

end BytecodeFlow
