import Mathlib
import BytecodeFlow.Proofs.Strategies

/-!
# The descent through clean code is the sweep of what is entered

A byte that looks like a jump destination may lie in an operand.  Code is clean if no jump that the
sweep reads goes to such a byte.  The descent through clean code then reads what the sweep reads, less
the instructions that nothing leads to.

**What is entered.**  `Entered` is the least set of offsets that holds the front, the end of every
entered instruction that does not halt, and the jump destinations that entered jumps go to.  It is told
from the listing of the sweep alone.

**The descent stays inside.**  A run takes the target of a jump from the instruction that it has just
left, the sweep from the one listed before.  They are the same, because except at the front no run
starts with a jump (`Within`).  So every instruction of the descent is one of the sweep, and is entered.

**Nothing is lost.**  Two instructions of the sweep never overlap, so what ends a run early cannot
happen: no instruction is given up (`Clean.refusals_eq_empty`), and every offset that is entered is
read (`Clean.has_of_entered`).
-/

namespace BytecodeFlow.Disassembly

variable {image : Image} {cells : Array Cell} {i j : Instruction} {t : Nat}

/-! ## What is entered -/

/-- Whether every jump of a listing to a byte that looks like a jump destination goes to an instruction
of the listing. -/
def Clean (image : Image) (listing : Array Instruction) : Prop :=
  ∀ position t, staticTarget? listing position = some t → image[t]? = some Opcode.jumpdest.byte →
    ∃ k ∈ listing, k.offset = t

/-- **The offsets at which the code of a listing is entered.** -/
inductive Entered (image : Image) (listing : Array Instruction) : Nat → Prop where
  | front : Entered image listing 0
  | behind {i : Instruction} : i ∈ listing → Entered image listing i.offset →
      i.opcode.halts = false → Entered image listing i.finish
  | landing {i : Instruction} {position t : Nat} : listing[position]? = some i →
      Entered image listing i.offset → staticTarget? listing position = some t →
      image[t]? = some Opcode.jumpdest.byte → Entered image listing t

/-! ## The descent stays inside -/

/-- **An entered instruction of the sweep**, before which, if it is a jump, the descent reads what the
sweep reads. -/
structure Within (image : Image) (cells : Array Cell) (i : Instruction) : Prop where
  mem : i ∈ (sweepFrom image 0).1
  entered : Entered image (sweepFrom image 0).1.toArray i.offset
  pushed : i.opcode.isJump = true → ∀ p, Has cells p → p.finish = i.offset →
    p ∈ (sweepFrom image 0).1

section Clean

variable (hclean : Clean image (sweepFrom image 0).1.toArray)

include hclean

/-- What follows an instruction of the sweep is in the sweep. -/
lemma Within.onward (hi : Within image cells i) (hj : decodeAt? image j.offset = some j)
    (hstep : i.opcode.halts = false ∧ i.finish = j.offset ∨ LandsOn image cells i j.offset) :
    j ∈ (sweepFrom image 0).1 ∧ Entered image (sweepFrom image 0).1.toArray j.offset := by
  rcases hstep with ⟨hgo, hnext⟩ | ⟨p, hp, hnext, hlanding⟩
  · refine ⟨mem_sweepFrom_of_finish hi.mem (hnext ▸ hj), ?_⟩
    rw [← hnext]
    exact .behind (by simpa using hi.mem) hi.entered hgo
  · have hjump := (landing?_eq_some_iff.mp hlanding).1
    obtain ⟨position, hposition⟩ := Array.getElem?_of_mem (List.mem_toArray.mpr hi.mem)
    obtain ⟨htarget, hdest⟩ := staticTarget?_of_landing (pairwise_sweepFrom image 0) hposition
      (by simpa using hi.pushed hjump p hp hnext) hnext hlanding
    refine ⟨mem_sweepFrom_of_offset_eq hj ?_, .landing hposition hi.entered htarget hdest⟩
    simpa using hclean position j.offset htarget hdest

lemma Within.step (hlaid : Laid image cells) (hi : Within image cells i)
    (hij : Leads image cells i j) : Within image cells j := by
  obtain ⟨hhas, hj, hstep⟩ := hij
  obtain ⟨hmem, hentered⟩ := hi.onward hclean (hlaid.decodeAt?_eq hj) hstep
  refine ⟨hmem, hentered, fun hjump p hp hnext => ?_⟩
  rcases hstep with ⟨_, hbehind⟩ | hland
  · rw [hlaid.eq_of_finish_eq hp hhas (hnext.trans hbehind.symm)]
    exact hi.mem
  · simp [not_isJump_of_landsOn hlaid hj hland] at hjump

/-- **The descent through clean code stays inside the sweep.** -/
lemma Clean.within {started : Array Bool} (h : Explored image started cells []) (hj : Has cells j) :
    Within image cells j := by
  obtain ⟨first, hfirst, hzero, hsteps⟩ := h.rooted j hj
  clear hj
  induction hsteps with
  | refl =>
      refine ⟨mem_sweepFrom_of_decodeAt? (hzero ▸ h.laid.decodeAt?_eq hfirst), ?_,
        fun _ p _ hnext => ?_⟩
      · rw [hzero]
        exact .front
      · have := p.offset_lt_finish
        omega
  | tail _ hij ih => exact ih.step hclean h.laid hij

/-! ## Nothing is lost -/

/-- **No instruction is given up**, since it would overlap another one of the sweep. -/
lemma Clean.refusals_eq_empty : refusals image = #[] := by
  obtain ⟨started, h⟩ := explored_surveyed image
  rw [Array.eq_empty_iff_forall_not_mem]
  intro i hi
  obtain ⟨hdecode, hcame, k, hk, hlow, hhigh⟩ := givenUp_of_mem_refusals hi
  have hmem : i ∈ (sweepFrom image 0).1 := by
    rcases hcame with hzero | ⟨p, hp, hstep⟩
    · exact mem_sweepFrom_of_decodeAt? (hzero ▸ hdecode)
    · exact ((hclean.within h hp).onward hclean hdecode hstep).1
  have hapart := (faithful_sweep image).not_inside
    (List.mem_toArray.mpr (hclean.within h hk).mem) (List.mem_toArray.mpr hmem)
  omega

/-- A jump that has been read lands where the listing of the sweep tells. -/
lemma Clean.landsOn {started : Array Bool} (h : Explored image started cells []) {position : Nat}
    (hposition : (sweepFrom image 0).1.toArray[position]? = some i) (hi : Has cells i)
    (htarget : staticTarget? (sweepFrom image 0).1.toArray position = some t)
    (hdest : image[t]? = some Opcode.jumpdest.byte) : LandsOn image cells i t := by
  have hlanding := landing?_of_staticTarget? hposition htarget hdest
  obtain ⟨p, hp, hnext⟩ := finish_eq_of_landing? (h.laid.decodeAt?_eq hi) hlanding
  rcases h.jumps i hi (landing?_eq_some_iff.mp hlanding).1 with hzero | ⟨q, hq, hqnext, _⟩
  · have := p.offset_lt_finish
    omega
  · -- the instruction that the run came from is the one that the sweep lists before the jump
    rw [before?_eq_some (pairwise_sweepFrom image 0) hposition
      (List.mem_toArray.mpr (hclean.within h hq).mem) hqnext] at hlanding
    exact ⟨q, hq, hqnext, hlanding⟩

/-- **Every instruction of the sweep that is entered is read.** -/
lemma Clean.has_of_entered {started : Array Bool} (h : Explored image started cells [])
    (ht : Entered image (sweepFrom image 0).1.toArray t) :
    ∀ i ∈ (sweepFrom image 0).1, i.offset = t → Has cells i := by
  have hread : ∀ i ∈ (sweepFrom image 0).1, (∃ j, Has cells j ∧ j.offset = i.offset) → Has cells i :=
    fun i hi => h.laid.has_of_decodeAt? (decodeAt?_of_mem_sweepFrom hi).2
  have hapart : ∀ i ∈ (sweepFrom image 0).1, ∀ j, Has cells j →
      (i.offset ≤ j.offset ∨ j.finish ≤ i.offset) ∧ (j.offset ≤ i.offset ∨ i.finish ≤ j.offset) := by
    intro i hi j hj
    have hi := List.mem_toArray.mpr hi
    have hj := List.mem_toArray.mpr (hclean.within h hj).mem
    exact ⟨(faithful_sweep image).not_inside hi hj, (faithful_sweep image).not_inside hj hi⟩
  -- the induction is on the way by which the offset is entered
  induction ht with
  | front =>
      intro i hi hzero
      refine hread i hi ?_
      rw [hzero]
      exact h.first (hzero ▸ (decodeAt?_of_mem_sweepFrom hi).2)
  | @behind q hq _ hgo ih =>
      intro i hi hoffset
      have hdecode := (decodeAt?_of_mem_sweepFrom hi).2
      have hsettled := (h.goesOn q (ih q (by simpa using hq) rfl)).resolve_left (by simp [hgo])
      rw [← hoffset] at hsettled
      rcases hsettled with hj | hnone | ⟨j, hj, k, hk, hlow, hhigh⟩
      · exact hread i hi hj
      · rw [hdecode] at hnone
        cases hnone
      · obtain rfl : i = j := Option.some.inj (hdecode.symm.trans hj)
        have := hapart i hi k hk
        omega
  | @landing q position t hposition _ htarget hdest ih =>
      intro i hi hoffset
      have hq : Has cells q := ih q (by simpa using Array.mem_of_getElem? hposition) rfl
      rcases h.landed hq (hclean.landsOn h hposition hq htarget hdest) with hj | ⟨j, hj, hlow, hhigh⟩
      · exact hread i hi (hoffset ▸ hj)
      · have := hapart i hi j hj
        omega

end Clean

/-! ## The comparison -/

open Classical in
/-- **The descent through clean code reads those instructions of the sweep that are entered**, in the
same order, and gives up none. -/
theorem descend_eq_filter_sweep (image : Image) (himage : image ≠ #[]) :
    ∃ swept reading, Strategy.linear.read image = .ok swept ∧
      Strategy.recursive.read image = .ok reading ∧
      (Clean image swept.disassembly.instructions →
        reading.disassembly.instructions = swept.disassembly.instructions.filter
            (fun i => Entered image swept.disassembly.instructions i.offset) ∧
          reading.refused = []) := by
  obtain ⟨started, h⟩ := explored_surveyed image
  refine ⟨_, _, by rw [Strategy.read, sweep_eq himage]; rfl, descend_eq_ok himage, fun hclean => ⟨?_, ?_⟩⟩
  · have hlisted : (listed (surveyed image)).toList.Pairwise (InvImage (· < ·) Instruction.offset) :=
      (faithful_descend image).offset_lt
    have hswept : (sweepFrom image 0).1.Pairwise (InvImage (· < ·) Instruction.offset) :=
      (faithful_sweep image).offset_lt
    rw [← Array.toList_inj, Array.toList_filter]
    refine hlisted.eq_of_mem_iff (hswept.filter _) fun i => ?_
    rw [← Array.mem_def, h.laid.mem_listed, List.mem_filter, decide_eq_true_eq]
    constructor
    · intro hi
      exact ⟨(hclean.within h hi).mem, (hclean.within h hi).entered⟩
    · rintro ⟨hi, hentered⟩
      exact hclean.has_of_entered h hentered i hi rfl
  · rw [hclean.refusals_eq_empty]

/-- A branch and a jump to code that meets again, around a push of a byte that looks like a jump
destination. -/
def rejoining : Image :=
  #[0x60, 0x08, 0x57, 0x60, 0x0b, 0x56, 0x60, 0x5b, 0x5b, 0x60, 0x08, 0x5b, 0x00]

/-- What the sweep reads in the sample. -/
def rejoiningListing : Array Instruction :=
  #[⟨0, ⟨0x60⟩, [0x08]⟩, ⟨2, .jumpi, []⟩, ⟨3, ⟨0x60⟩, [0x0b]⟩, ⟨5, .jump, []⟩, ⟨6, ⟨0x60⟩, [0x5b]⟩,
    ⟨8, .jumpdest, []⟩, ⟨9, ⟨0x60⟩, [0x08]⟩, ⟨11, .jumpdest, []⟩, ⟨12, .stop, []⟩]

lemma staticTarget?_rejoining {position : Nat} (h : staticTarget? rejoiningListing position = some t) :
    t = 8 ∨ t = 11 := by
  have hall : ∀ position < rejoiningListing.size, ∀ t ∈ staticTarget? rejoiningListing position,
      t = 8 ∨ t = 11 := by decide
  obtain ⟨i, hi, _⟩ := Option.bind_eq_some_iff.mp h
  exact hall position (Array.getElem?_eq_some_iff.mp hi).1 t h

/-- Nothing leads to the push between the two parts of the sample: the jump before it halts. -/
lemma not_entered_rejoining : ¬Entered rejoining rejoiningListing 6 := by
  intro h
  generalize ht : 6 = t at h
  cases h with
  | front => omega
  | @behind i hi _ hgo =>
      have honly : ∀ i ∈ rejoiningListing.toList, i.finish = 6 → i.opcode.halts = true := by decide
      simp [honly i (by simpa using hi) ht.symm] at hgo
  | landing _ _ htarget _ =>
      have := staticTarget?_rejoining htarget
      omega

/-- The sample is clean.  The branch leads behind the push, and nothing to the push itself. -/
theorem descend_eq_filter_sweep_rejoining :
    rejoining ≠ #[] ∧ Clean rejoining rejoiningListing ∧
      ∃ swept reading, Strategy.linear.read rejoining = .ok swept ∧
        Strategy.recursive.read rejoining = .ok reading ∧
        swept.disassembly.instructions = rejoiningListing ∧ reading.refused = [] ∧
        ⟨8, .jumpdest, []⟩ ∈ reading.disassembly.instructions ∧
        ⟨6, ⟨0x60⟩, [0x5b]⟩ ∉ reading.disassembly.instructions := by
  have hlinear : Strategy.linear.read rejoining = .ok ⟨⟨rejoiningListing, 0⟩, []⟩ := by cbv
  have hclean : Clean rejoining rejoiningListing := by
    intro position t htarget _
    rcases staticTarget?_rejoining htarget with rfl | rfl
    · exact ⟨⟨8, .jumpdest, []⟩, by simp [rejoiningListing], rfl⟩
    · exact ⟨⟨11, .jumpdest, []⟩, by simp [rejoiningListing], rfl⟩
  have hentered : Entered rejoining rejoiningListing 8 := by
    have hbranch : Entered rejoining rejoiningListing 2 :=
      .behind (i := ⟨0, ⟨0x60⟩, [0x08]⟩) (by simp [rejoiningListing]) .front (by decide +kernel)
    exact .landing (show rejoiningListing[1]? = some ⟨2, .jumpi, []⟩ from rfl) hbranch (by decide) rfl
  obtain ⟨swept, reading, hswept, hreading, himp⟩ := descend_eq_filter_sweep rejoining (by decide)
  obtain rfl := Except.ok.inj (hswept.symm.trans hlinear)
  obtain ⟨hfilter, hrefused⟩ := himp hclean
  refine ⟨by decide, hclean, _, reading, hswept, hreading, rfl, hrefused, ?_, ?_⟩
  · rw [hfilter, Array.mem_filter]
    exact ⟨by simp [rejoiningListing], by simpa using hentered⟩
  · rw [hfilter, Array.mem_filter]
    rintro ⟨_, hpush⟩
    exact not_entered_rejoining (by simpa using hpush)

end BytecodeFlow.Disassembly
