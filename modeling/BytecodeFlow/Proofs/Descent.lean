import Mathlib
import BytecodeFlow.Proofs.Layout

/-!
# The descent reads reachable code, and misses only what an overlap forces

A run of the descent ends where it meets an earlier one, where nothing can be decoded, behind an
instruction that halts, and at an instruction that would share a byte with one read earlier.  The
runs are started from a queue.  This file shows that nothing is read without a reason and that
nothing is lost at any of these ends.

**Steps.**  `Leads` is a step from one instruction that has been read to another: on to the next byte,
or by a jump.  The target of a jump is pushed by the instruction that ends where the jump starts
(`LandsOn`).  There is one such instruction at most, so the one that the run has just left is the
one that stands before the jump in the finished listing (`Laid.landsOn_iff`).  All of this is kept
when more is read (`Grows`).

**Runs.**  `Followed` says what one run adds: every new instruction is the first one or is led to, is
gone on from or has a reason not to be (`Settled`), and has its target noted.

**What is given up.**  An instruction is given up only where a run comes to it and another one starts
inside it (`GivenUp`).

**The queue.**  `Explored` is what holds between the runs: what has been read is led to from the first
byte, and every target is waiting or has been dealt with.  When the queue is empty, nothing waits.
-/

namespace BytecodeFlow

open Relation

variable {image : Image} {i j p : Instruction} {previous : Option Instruction} {t : Nat}

/-! ## Targets of jumps -/

lemma Opcode.not_isPush_of_isJump {op : Opcode} (h : op.isJump = true) : op.isPush = false := by
  simp only [isJump, Bool.or_eq_true, decide_eq_true_eq] at h
  rcases h with rfl | rfl <;> rfl

/-- A jump has no literal of its own, so its target is pushed by the instruction just before it. -/
lemma Instruction.finish_eq_of_jumpTarget? (hoperand : i.operand = [])
    (h : i.jumpTarget? previous = some t) : ∃ p, previous = some p ∧ p.finish = i.offset := by
  cases previous with
  | none => simp [jumpTarget?, literal?, hoperand] at h
  | some p =>
      refine ⟨p, rfl, ?_⟩
      by_contra hapart
      simp [jumpTarget?, literal?, hoperand, hapart] at h

namespace Disassembly

variable {cells cells' : Array Cell} {offset : Nat}

lemma landing?_eq_some_iff :
    landing? image i previous = some t ↔
      i.opcode.isJump = true ∧ i.jumpTarget? previous = some t ∧
        image[t]? = some Opcode.jumpdest.byte := by
  by_cases hjump : i.opcode.isJump = true
  · simp [landing?, hjump, Option.filter_eq_some_iff]
  · simp [landing?, hjump]

lemma operand_eq_nil_of_isJump (hi : decodeAt? image offset = some i)
    (hjump : i.opcode.isJump = true) : i.operand = [] := by
  obtain ⟨_, hlength, _⟩ := decodeAt?_eq_some_iff.mp hi
  rw [Opcode.operandSize_of_not_isPush (Opcode.not_isPush_of_isJump hjump)] at hlength
  exact List.length_eq_zero_iff.mp hlength

lemma finish_eq_of_landing? (hi : decodeAt? image offset = some i)
    (h : landing? image i previous = some t) : ∃ p, previous = some p ∧ p.finish = i.offset := by
  obtain ⟨hjump, htarget, _⟩ := landing?_eq_some_iff.mp h
  exact Instruction.finish_eq_of_jumpTarget? (operand_eq_nil_of_isJump hi hjump) htarget

lemma decodeAt?_of_jumpdest (h : image[t]? = some Opcode.jumpdest.byte) :
    decodeAt? image t = some ⟨t, .jumpdest, []⟩ := by
  simp only [decodeAt?, h]
  rfl

/-! ## Steps -/

/-- Whether a jump that has been read goes to an offset. -/
def LandsOn (image : Image) (cells : Array Cell) (i : Instruction) (t : Nat) : Prop :=
  ∃ p, Has cells p ∧ p.finish = i.offset ∧ landing? image i (some p) = some t

/-- **A step** from one instruction that has been read to another. -/
def Leads (image : Image) (cells : Array Cell) (i j : Instruction) : Prop :=
  Has cells i ∧ Has cells j ∧
    (i.opcode.halts = false ∧ i.finish = j.offset ∨ LandsOn image cells i j.offset)

/-- Whether steps lead to an instruction from the first byte. -/
def Rooted (image : Image) (cells : Array Cell) (j : Instruction) : Prop :=
  ∃ first, Has cells first ∧ first.offset = 0 ∧ ReflTransGen (Leads image cells) first j

/-- **What becomes of an offset that a run comes to**: an instruction has been read there, or none
can be, or it would cover the head of another one. -/
def Settled (image : Image) (cells : Array Cell) (offset : Nat) : Prop :=
  (∃ j, Has cells j ∧ j.offset = offset) ∨ decodeAt? image offset = none ∨
    ∃ j, decodeAt? image offset = some j ∧ ∃ k, Has cells k ∧ offset < k.offset ∧ k.offset < j.finish

/-- Whether all that has been read in one table has been read in another. -/
def Grows (cells cells' : Array Cell) : Prop :=
  ∀ i, Has cells i → Has cells' i

lemma LandsOn.mono (hgrows : Grows cells cells') (h : LandsOn image cells i t) :
    LandsOn image cells' i t := by
  obtain ⟨p, hp, hnext, hlanding⟩ := h
  exact ⟨p, hgrows p hp, hnext, hlanding⟩

lemma Leads.mono (hgrows : Grows cells cells') (h : Leads image cells i j) :
    Leads image cells' i j := by
  obtain ⟨hi, hj, hstep⟩ := h
  exact ⟨hgrows i hi, hgrows j hj, hstep.imp_right (·.mono hgrows)⟩

lemma Rooted.mono (hgrows : Grows cells cells') (h : Rooted image cells j) :
    Rooted image cells' j := by
  obtain ⟨first, hfirst, hzero, hsteps⟩ := h
  exact ⟨first, hgrows first hfirst, hzero, hsteps.lift id fun _ _ => Leads.mono hgrows⟩

lemma Rooted.tail (h : Rooted image cells i) (hij : Leads image cells i j) :
    Rooted image cells j := by
  obtain ⟨first, hfirst, hzero, hsteps⟩ := h
  exact ⟨first, hfirst, hzero, hsteps.tail hij⟩

lemma Settled.mono (hgrows : Grows cells cells') (h : Settled image cells offset) :
    Settled image cells' offset := by
  rcases h with ⟨j, hj, hoffset⟩ | hnone | ⟨j, hj, k, hk, hbounds⟩
  · exact Or.inl ⟨j, hgrows j hj, hoffset⟩
  · exact Or.inr (Or.inl hnone)
  · exact Or.inr (Or.inr ⟨j, hj, k, hgrows k hk, hbounds⟩)

/-- The byte behind an instruction is not inside another one. -/
lemma Laid.not_inside_finish (h : Laid image cells) (hi : Has cells i) :
    cells[i.finish]? ≠ some .inside := by
  intro hinside
  obtain ⟨j, hj, hbefore, hbehind⟩ := h.owned i.finish hinside
  rcases Nat.lt_trichotomy i.offset j.offset with hlt | hsame | hgt
  · have := h.finish_le hi hj hlt
    omega
  · rw [Has, hsame, hj] at hi
    obtain rfl : j = i := by simpa using hi
    omega
  · have := h.finish_le hj hi hgt
    have := i.offset_lt_finish
    omega

/-! ## Runs -/

/-- **What one run adds** to what has been read and to the targets noted, starting at an offset
behind the instruction `previous`, if there is one. -/
structure Followed (image : Image) (run : Run) (previous : Option Instruction) (offset : Nat)
    (after : Run) : Prop where
  grows : Grows run.cells after.cells
  came : ∀ i, Has after.cells i → Has run.cells i ∨ i.offset = offset ∨
    ∃ p, Has after.cells p ∧ p.opcode.halts = false ∧ p.finish = i.offset
  goesOn : ∀ i, Has after.cells i → Has run.cells i ∨ i.opcode.halts = true ∨
    Settled image after.cells i.finish
  jumps : ∀ i, Has after.cells i → Has run.cells i ∨ previous = none ∧ i.offset = offset ∨
    ∃ p, Has after.cells p ∧ p.finish = i.offset ∧
      ∀ t, landing? image i (some p) = some t → t ∈ after.targets
  keeps : ∀ t ∈ run.targets, t ∈ after.targets
  targets : ∀ t ∈ after.targets, t ∈ run.targets ∨ ∃ i, Has after.cells i ∧ LandsOn image after.cells i t

namespace Followed

variable {run after : Run}

lemma idle {refused : Option Instruction} :
    Followed image run previous offset ⟨run.cells, run.targets, refused⟩ where
  grows := fun _ hi => hi
  came := fun _ hi => Or.inl hi
  goesOn := fun _ hi => Or.inl hi
  jumps := fun _ hi => Or.inl hi
  keeps := fun _ ht => ht
  targets := fun _ ht => Or.inl ht

/-- **Reading one instruction and then following the run** is following the run from that
instruction on. -/
lemma read (hi : decodeAt? image offset = some i)
    (hhas : ∀ j, Has (run.extend image previous i).cells j ↔ Has run.cells j ∨ j = i)
    (hprevious : ∀ p ∈ previous, Has run.cells p ∧ p.finish = offset)
    (hend : i.opcode.halts = true ∧ after = run.extend image previous i ∨
      i.opcode.halts = false ∧ Settled image after.cells i.finish)
    (h : Followed image (run.extend image previous i) (some i) i.finish after) :
    Followed image run previous offset after := by
  have hoffset : i.offset = offset := offset_of_decodeAt? hi
  have hnew : Has after.cells i := h.grows i ((hhas i).mpr (Or.inr rfl))
  have hgrows : Grows run.cells after.cells := fun j hj => h.grows j ((hhas j).mpr (Or.inl hj))
  refine ⟨hgrows, fun j hj => ?_, fun j hj => ?_, fun j hj => ?_, fun t ht => ?_, fun t ht => ?_⟩
  · have hfirst : Has (run.extend image previous i).cells j → Has run.cells j ∨ j.offset = offset := by
      intro hj
      rcases (hhas j).mp hj with hj | rfl
      · exact Or.inl hj
      · exact Or.inr hoffset
    rcases h.came j hj with hj | hnext | hcame
    · exact (hfirst hj).imp_right Or.inl
    · rcases hend with ⟨_, rfl⟩ | ⟨hgo, _⟩
      · exact (hfirst hj).imp_right Or.inl
      · exact Or.inr (Or.inr ⟨i, hnew, hgo, hnext.symm⟩)
    · exact Or.inr (Or.inr hcame)
  · rcases h.goesOn j hj with hj | hgo
    · rcases (hhas j).mp hj with hj | rfl
      · exact Or.inl hj
      · exact Or.inr (hend.imp And.left And.right)
    · exact Or.inr hgo
  · rcases h.jumps j hj with hj | ⟨hnone, _⟩ | hjump
    · rcases (hhas j).mp hj with hj | rfl
      · exact Or.inl hj
      · cases previous with
        | none => exact Or.inr (Or.inl ⟨rfl, hoffset⟩)
        | some p =>
            obtain ⟨hp, hnext⟩ := hprevious p rfl
            refine Or.inr (Or.inr ⟨p, hgrows p hp, hnext.trans hoffset.symm, fun t ht => ?_⟩)
            exact h.keeps t (by simp [Run.extend, ht])
    · cases hnone
    · exact Or.inr (Or.inr hjump)
  · exact h.keeps t (by simp [Run.extend, ht])
  · rcases h.targets t ht with ht | hland
    · rcases Array.mem_append.mp ht with ht | ht
      · exact Or.inl ht
      · have hlanding : landing? image i previous = some t := by simpa using ht
        obtain ⟨p, rfl, hnext⟩ := finish_eq_of_landing? hi hlanding
        exact Or.inr ⟨i, hnew, p, hgrows p (hprevious p rfl).1, hnext, hlanding⟩
    · exact Or.inr hland

end Followed

/-- **A run from an offset that is not inside an instruction** adds what `Followed` says, and
settles the offset. -/
lemma Laid.followed {run : Run} (h : Laid image run.cells)
    (hprevious : ∀ p ∈ previous, Has run.cells p ∧ p.finish = offset)
    (hinside : run.cells[offset]? ≠ some .inside) :
    Followed image run previous offset (Run.follow image run previous offset) ∧
      Settled image (Run.follow image run previous offset).cells offset := by
  fun_induction Run.follow image run previous offset with
  | case1 run previous offset i hi _ _ hmet =>
      rw [offset_of_decodeAt? hi] at hmet
      obtain ⟨j, hj⟩ := isHeadAt_iff.mp hmet
      exact ⟨.idle, Or.inl ⟨j, h.has_of_head hj⟩⟩
  | case2 run previous offset i hi _ _ hnew hover =>
      rw [offset_of_decodeAt? hi] at hover
      obtain ⟨k, j, hlow, hhigh, hj⟩ := (overlaps_iff.mp hover).resolve_left hinside
      obtain ⟨hj, rfl⟩ := h.has_of_head hj
      exact ⟨.idle, Or.inr (Or.inr ⟨i, hi, j, hj, hlow, hhigh⟩)⟩
  | case3 run previous offset i hi _ _ hnew hclear hhalts =>
      obtain ⟨_, hhas⟩ := h.extend hi hnew hclear previous
      refine ⟨.read hi hhas hprevious (Or.inl ⟨hhalts, rfl⟩) .idle, ?_⟩
      exact Or.inl ⟨i, (hhas i).mpr (Or.inr rfl), offset_of_decodeAt? hi⟩
  | case4 run previous offset i hi _ _ hnew hclear hhalts ih =>
      obtain ⟨hlaid, hhas⟩ := h.extend hi hnew hclear previous
      have hread : Has (run.extend image previous i).cells i := (hhas i).mpr (Or.inr rfl)
      obtain ⟨hrest, hsettled⟩ := ih hlaid (by simp [hread]) (hlaid.not_inside_finish hread)
      refine ⟨.read hi hhas hprevious (Or.inr ⟨by simpa using hhalts, hsettled⟩) hrest, ?_⟩
      exact Or.inl ⟨i, hrest.grows i hread, offset_of_decodeAt? hi⟩
  | case5 run previous offset hi => exact ⟨.idle, Or.inr (Or.inl hi)⟩

/-! ## Instructions given up -/

/-- Whether a run comes to an offset: to the front, behind an instruction that does not halt, or by a
jump. -/
def ComesTo (image : Image) (cells : Array Cell) (t : Nat) : Prop :=
  t = 0 ∨ ∃ p, Has cells p ∧ (p.opcode.halts = false ∧ p.finish = t ∨ LandsOn image cells p t)

/-- **An instruction that a run comes to and gives up**, because another one starts inside it. -/
structure GivenUp (image : Image) (cells : Array Cell) (i : Instruction) : Prop where
  decoded : decodeAt? image i.offset = some i
  came : ComesTo image cells i.offset
  covers : ∃ k, Has cells k ∧ i.offset < k.offset ∧ k.offset < i.finish

lemma GivenUp.mono (hgrows : Grows cells cells') (h : GivenUp image cells i) :
    GivenUp image cells' i := by
  obtain ⟨k, hk, hbounds⟩ := h.covers
  refine ⟨h.decoded, h.came.imp_right ?_, k, hgrows k hk, hbounds⟩
  rintro ⟨p, hp, hstep⟩
  exact ⟨p, hgrows p hp, hstep.imp_right (·.mono hgrows)⟩

/-- **A run gives up only what it comes to.** -/
lemma Laid.givenUp_follow {run : Run} (h : Laid image run.cells)
    (hcomes : ComesTo image run.cells offset) (hinside : run.cells[offset]? ≠ some .inside)
    (hrefused : ∀ i ∈ run.refused, GivenUp image run.cells i) :
    ∀ i ∈ (Run.follow image run previous offset).refused,
      GivenUp image (Run.follow image run previous offset).cells i := by
  fun_induction Run.follow image run previous offset with
  | case1 run previous offset i hi _ _ hmet => exact hrefused
  | case2 run previous offset i hi _ _ hnew hover =>
      rintro j ⟨⟩
      obtain rfl := offset_of_decodeAt? hi
      obtain ⟨k, j, hlow, hhigh, hj⟩ := (overlaps_iff.mp hover).resolve_left hinside
      obtain ⟨hj, rfl⟩ := h.has_of_head hj
      exact ⟨hi, hcomes, j, hj, hlow, hhigh⟩
  | case3 run previous offset i hi _ _ hnew hclear hhalts =>
      obtain ⟨_, hhas⟩ := h.extend hi hnew hclear previous
      exact fun j hj => (hrefused j hj).mono fun k hk => (hhas k).mpr (Or.inl hk)
  | case4 run previous offset i hi _ _ hnew hclear hhalts ih =>
      obtain ⟨hlaid, hhas⟩ := h.extend hi hnew hclear previous
      have hread : Has (run.extend image previous i).cells i := (hhas i).mpr (Or.inr rfl)
      refine ih hlaid (Or.inr ⟨i, hread, Or.inl ⟨by simpa using hhalts, rfl⟩⟩)
        (hlaid.not_inside_finish hread) ?_
      exact fun j hj => (hrefused j hj).mono fun k hk => (hhas k).mpr (Or.inl hk)
  | case5 run previous offset hi => exact hrefused

/-! ## The queue -/

/-- Whether an offset has been started from or is waiting to be. -/
def Known (started : Array Bool) (queue : List Nat) (t : Nat) : Prop :=
  started[t]? = some true ∨ t ∈ queue

lemma getElem?_set_true_iff {started : Array Bool} {start : Nat} (t : Nat) (hlt : start < started.size) :
    (started.set start true)[t]? = some true ↔ t = start ∨ started[t]? = some true := by
  rw [Array.getElem?_set]
  split_ifs with heq
  · simp [heq]
  · simp [Ne.symm heq]

/-- **What holds between the runs of the descent.** -/
structure Explored (image : Image) (started : Array Bool) (cells : Array Cell) (queue : List Nat) :
    Prop where
  laid : Laid image cells
  size_eq : started.size = image.size
  rooted : ∀ j, Has cells j → Rooted image cells j
  goesOn : ∀ i, Has cells i → i.opcode.halts = true ∨ Settled image cells i.finish
  jumps : ∀ i, Has cells i → i.opcode.isJump = true → i.offset = 0 ∨
    ∃ p, Has cells p ∧ p.finish = i.offset ∧
      ∀ t, landing? image i (some p) = some t → Known started queue t
  queued : ∀ t ∈ queue, t = 0 ∨ ∃ i, Has cells i ∧ LandsOn image cells i t
  begun : 0 < image.size → Known started queue 0
  dealt : ∀ t : Nat, started[t]? = some true → cells[t]? = some .inside ∨ Settled image cells t

lemma Grows.inside (hgrows : Grows cells cells') (h : Laid image cells) (h' : Laid image cells')
    {k : Nat} (hk : cells[k]? = some .inside) : cells'[k]? = some .inside := by
  obtain ⟨j, hj, hbefore, hbehind⟩ := h.owned k hk
  exact h'.owns j (hgrows j hj) k hbefore hbehind

/-- A jump destination is no jump, so the first instruction of a run that a jump started is none. -/
lemma not_isJump_of_landsOn (h : Laid image cells) (hi : Has cells i)
    (hland : LandsOn image cells' j i.offset) : i.opcode.isJump = false := by
  obtain ⟨p, _, _, hlanding⟩ := hland
  have hdest := decodeAt?_of_jumpdest (landing?_eq_some_iff.mp hlanding).2.2
  rw [h.decodeAt?_eq hi] at hdest
  rw [Option.some.inj hdest]
  rfl

lemma explored_start (image : Image) :
    Explored image (Array.replicate image.size false) (Array.replicate image.size .free) [0] := by
  have hnone : ∀ i, ¬Has (Array.replicate image.size .free) i := by
    intro i hi
    simp [Has, Array.getElem?_replicate] at hi
  refine ⟨laid_start image, by simp, fun j hj => absurd hj (hnone j), fun i hi => absurd hi (hnone i),
    fun i hi => absurd hi (hnone i), by simp, fun _ => Or.inr (by simp), fun t ht => ?_⟩
  simp [Array.getElem?_replicate] at ht

namespace Explored

variable {started started' : Array Bool} {start : Nat} {rest queue queue' : List Nat}

/-- An offset that needs no run is taken from the queue. -/
lemma skip (h : Explored image started cells (start :: rest))
    (hsize : started'.size = started.size)
    (hknown : ∀ t < image.size, Known started (start :: rest) t → Known started' rest t)
    (hdealt : ∀ t : Nat, started'[t]? = some true → started[t]? = some true ∨
      cells[t]? = some .inside) :
    Explored image started' cells rest where
  laid := h.laid
  size_eq := hsize.trans h.size_eq
  rooted := h.rooted
  goesOn := h.goesOn
  jumps := by
    intro i hi hjump
    refine (h.jumps i hi hjump).imp_right ?_
    rintro ⟨p, hp, hnext, htargets⟩
    refine ⟨p, hp, hnext, fun t ht => hknown t ?_ (htargets t ht)⟩
    exact (Array.getElem?_eq_some_iff.mp (landing?_eq_some_iff.mp ht).2.2).1
  queued := fun t ht => h.queued t (List.mem_cons_of_mem _ ht)
  begun := fun hpos => hknown 0 hpos (h.begun hpos)
  dealt := by
    intro t ht
    rcases hdealt t ht with ht | hinside
    · exact h.dealt t ht
    · exact Or.inl hinside

/-- **A run from the queue leads on what was led to**, and its targets join the queue. -/
lemma visit {after : Run} {fresh : List Nat} (h : Explored image started cells (start :: rest))
    (hlt : start < started.size) (hinside : cells[start]? ≠ some .inside)
    (hafter : after = Run.follow image ⟨cells, #[], none⟩ none start)
    (hfresh : fresh = after.targets.toList.filter
      fun target => (started.set start true)[target]? ≠ some true) :
    Explored image (started.set start true) after.cells (rest ++ fresh) := by
  have hfollowed : Followed image ⟨cells, #[], none⟩ none start after ∧
      Settled image after.cells start := by
    rw [hafter]
    exact Laid.followed h.laid (by simp) hinside
  obtain ⟨hrun, hsettled⟩ := hfollowed
  have hlaid : Laid image after.cells := hafter ▸ h.laid.follow none start
  have hgrows : Grows cells after.cells := hrun.grows
  have hset := fun t => getElem?_set_true_iff t hlt
  have hknown : ∀ t, Known started (start :: rest) t →
      Known (started.set start true) (rest ++ fresh) t := by
    rintro t (ht | ht)
    · exact Or.inl ((hset t).mpr (Or.inr ht))
    · rcases List.mem_cons.mp ht with rfl | ht
      · exact Or.inl ((hset t).mpr (Or.inl rfl))
      · exact Or.inr (List.mem_append_left _ ht)
  have hnoted : ∀ t ∈ after.targets, Known (started.set start true) (rest ++ fresh) t := by
    intro t ht
    by_cases hdone : (started.set start true)[t]? = some true
    · exact Or.inl hdone
    · refine Or.inr (List.mem_append_right _ ?_)
      rw [hfresh, List.mem_filter]
      exact ⟨Array.mem_toList_iff.mpr ht, by simpa using hdone⟩
  -- an instruction of the run is led to from one that starts before it, back to the first one
  have hrooted : ∀ n j, j.offset = n → Has after.cells j → Rooted image after.cells j := by
    intro n
    induction n using Nat.strong_induction_on with
    | h n ih =>
        rintro j rfl hj
        rcases hrun.came j hj with hold | hfirst | ⟨p, hp, hgo, hnext⟩
        · exact (h.rooted j hold).mono hgrows
        · rcases h.queued start List.mem_cons_self with hzero | ⟨i, hi, hland⟩
          · exact ⟨j, hj, hfirst.trans hzero, .refl⟩
          · refine ((h.rooted i hi).mono hgrows).tail ⟨hgrows i hi, hj, Or.inr ?_⟩
            rw [hfirst]
            exact hland.mono hgrows
        · have hbefore : p.offset < j.offset := hnext ▸ p.offset_lt_finish
          exact (ih p.offset hbefore p rfl hp).tail ⟨hp, hj, Or.inl ⟨hgo, hnext⟩⟩
  refine ⟨hlaid, by rw [Array.size_set, h.size_eq], fun j => hrooted j.offset j rfl, fun i hi => ?_,
    fun i hi hjump => ?_, fun t ht => ?_, fun hpos => hknown 0 (h.begun hpos), fun t ht => ?_⟩
  · rcases hrun.goesOn i hi with hold | hnew
    · exact (h.goesOn i hold).imp_right (·.mono hgrows)
    · exact hnew
  · rcases hrun.jumps i hi with hold | ⟨_, hfirst⟩ | ⟨p, hp, hnext, htargets⟩
    · refine (h.jumps i hold hjump).imp_right ?_
      rintro ⟨p, hp, hnext, htargets⟩
      exact ⟨p, hgrows p hp, hnext, fun t ht => hknown t (htargets t ht)⟩
    · rcases h.queued start List.mem_cons_self with hzero | ⟨j, _, hland⟩
      · exact Or.inl (hfirst.trans hzero)
      · rw [← hfirst] at hland
        exact absurd hjump (by simp [not_isJump_of_landsOn hlaid hi hland])
    · exact Or.inr ⟨p, hp, hnext, fun t ht => hnoted t (htargets t ht)⟩
  · rcases List.mem_append.mp ht with ht | ht
    · refine (h.queued t (List.mem_cons_of_mem _ ht)).imp_right ?_
      rintro ⟨i, hi, hland⟩
      exact ⟨i, hgrows i hi, hland.mono hgrows⟩
    · rw [hfresh, List.mem_filter, Array.mem_toList_iff] at ht
      rcases hrun.targets t ht.1 with hnone | hland
      · simp at hnone
      · exact Or.inr hland
  · rcases (hset t).mp ht with rfl | ht
    · exact Or.inr hsettled
    · exact (h.dealt t ht).imp (hgrows.inside h.laid hlaid) (·.mono hgrows)

/-- A run from the queue gives up only what the descent comes to. -/
lemma givenUp_visit (h : Explored image started cells (start :: rest))
    (hinside : cells[start]? ≠ some .inside) {refused : Array Instruction}
    (hrefused : ∀ i ∈ refused, GivenUp image cells i) :
    ∀ i ∈ refused ++ (Run.follow image ⟨cells, #[], none⟩ none start).refused.toArray,
      GivenUp image (Run.follow image ⟨cells, #[], none⟩ none start).cells i := by
  intro i hi
  rcases Array.mem_append.mp hi with hi | hi
  · exact (hrefused i hi).mono (Laid.followed h.laid (by simp) hinside).1.grows
  · refine Laid.givenUp_follow h.laid ((h.queued start List.mem_cons_self).imp_right ?_) hinside
      (by simp) i (by simpa using hi)
    rintro ⟨p, hp, hland⟩
    exact ⟨p, hp, Or.inr hland⟩

/-- **The descent ends with nothing waiting**, and gives up only what it comes to. -/
lemma explore {survey : Survey} (h : Explored image started survey.cells queue)
    (hrefused : ∀ i ∈ survey.refused, GivenUp image survey.cells i) :
    (∃ started', Explored image started' (explore image started survey queue).cells []) ∧
      ∀ i ∈ (Disassembly.explore image started survey queue).refused,
        GivenUp image (Disassembly.explore image started survey queue).cells i := by
  fun_induction Disassembly.explore image started survey queue with
  | case1 started survey => exact ⟨⟨started, h⟩, hrefused⟩
  | case2 started survey start rest hlt hdone ih =>
      refine ih (h.skip rfl (fun t _ ht => ?_) fun t ht => Or.inl ht) hrefused
      rcases ht.imp_right List.mem_cons.mp with ht | rfl | ht
      · exact Or.inl ht
      · exact Or.inl (by rw [Array.getElem?_eq_getElem hlt, hdone])
      · exact Or.inr ht
  | case3 started survey start rest hlt hdone started' hinside ih =>
      refine ih (h.skip (by simp [started']) (fun t _ ht => ?_) fun t ht => ?_) hrefused
      · rcases ht.imp_right List.mem_cons.mp with ht | rfl | ht
        · exact Or.inl ((getElem?_set_true_iff t hlt).mpr (Or.inr ht))
        · exact Or.inl ((getElem?_set_true_iff t hlt).mpr (Or.inl rfl))
        · exact Or.inr ht
      · rcases (getElem?_set_true_iff t hlt).mp ht with rfl | ht
        · exact Or.inr (isInside_iff.mp hinside)
        · exact Or.inl ht
  | case4 started survey start rest hlt hdone started' hinside run fresh ih =>
      have hinside := mt isInside_iff.mpr hinside
      exact ih (h.visit hlt hinside rfl rfl) (h.givenUp_visit hinside hrefused)
  | case5 started survey start rest hlt ih =>
      refine ih (h.skip rfl (fun t hin ht => ?_) fun t ht => Or.inl ht) hrefused
      rcases ht.imp_right List.mem_cons.mp with ht | rfl | ht
      · exact Or.inl ht
      · exact absurd (h.size_eq ▸ hin) hlt
      · exact Or.inr ht

end Explored

lemma explored_surveyed (image : Image) :
    ∃ started, Explored image started (surveyed image) [] :=
  (Explored.explore (explored_start image) (by simp)).1

lemma givenUp_of_mem_refusals (hi : i ∈ refusals image) : GivenUp image (surveyed image) i :=
  (Explored.explore (explored_start image) (by simp)).2 i hi

/-! ## The listing -/

/-- The target of the jump at a position of a listing, as far as the instruction before it tells. -/
def staticTarget? (listing : Array Instruction) (position : Nat) : Option Nat :=
  (listing[position]?).bind fun i =>
    if i.opcode.isJump then i.jumpTarget? (before? listing position) else none

/-- **A step inside a listing**: from an instruction that does not halt to the one at its end, or from
a jump to the jump destination at its target. -/
inductive Step (image : Image) (listing : Array Instruction) : Instruction → Instruction → Prop where
  | fall {i j : Instruction} : i ∈ listing → j ∈ listing → i.opcode.halts = false →
      i.finish = j.offset → Step image listing i j
  | jump {i j : Instruction} {position : Nat} : listing[position]? = some i → j ∈ listing →
      staticTarget? listing position = some j.offset →
      image[j.offset]? = some Opcode.jumpdest.byte → Step image listing i j

lemma mem_of_before? {listing : Array Instruction} {position : Nat}
    (h : before? listing position = some p) : p ∈ listing := by
  cases position with
  | zero => simp [before?] at h
  | succ position => exact Array.mem_of_getElem? h

/-- In a listing without overlaps, the instruction that ends where another one starts stands just
before it. -/
lemma before?_eq_some {listing : Array Instruction} {position : Nat}
    (horder : listing.toList.Pairwise fun i j => i.finish ≤ j.offset)
    (hi : listing[position]? = some i) (hp : p ∈ listing) (hnext : p.finish = i.offset) :
    before? listing position = some p := by
  have hapart : ∀ {m n : Nat} {a b : Instruction}, m < n → listing[m]? = some a →
      listing[n]? = some b → a.finish ≤ b.offset := by
    intro m n a b hlt ha hb
    obtain ⟨hm, rfl⟩ := Array.getElem?_eq_some_iff.mp ha
    obtain ⟨hn, rfl⟩ := Array.getElem?_eq_some_iff.mp hb
    exact List.pairwise_iff_getElem.mp horder m n hm hn hlt
  obtain ⟨m, hm⟩ := Array.getElem?_of_mem hp
  have hpos := i.offset_lt_finish
  have hpos' := p.offset_lt_finish
  rcases Nat.lt_trichotomy m position with hlt | rfl | hgt
  · obtain ⟨n, rfl⟩ := Nat.exists_eq_add_one_of_ne_zero (Nat.ne_zero_of_lt hlt)
    rcases Nat.eq_or_lt_of_le (Nat.le_of_lt_succ hlt) with rfl | hbefore
    · exact hm
    · -- an instruction between the two would have to lie in no bytes
      obtain ⟨hlen, _⟩ := Array.getElem?_eq_some_iff.mp hi
      have hq : listing[n]? = some listing[n] := Array.getElem?_eq_getElem (Nat.lt_of_succ_lt hlen)
      have := hapart hbefore hm hq
      have := hapart (Nat.lt_succ_self n) hq hi
      have := listing[n].offset_lt_finish
      omega
  · obtain rfl : p = i := by simpa [hi] using hm.symm
    omega
  · have := hapart hgt hi hm
    omega

lemma staticTarget?_of_landing {listing : Array Instruction} {position : Nat}
    (horder : listing.toList.Pairwise fun i j => i.finish ≤ j.offset)
    (hi : listing[position]? = some i) (hp : p ∈ listing) (hnext : p.finish = i.offset)
    (hlanding : landing? image i (some p) = some t) :
    staticTarget? listing position = some t ∧ image[t]? = some Opcode.jumpdest.byte := by
  obtain ⟨hjump, htarget, hdest⟩ := landing?_eq_some_iff.mp hlanding
  rw [staticTarget?, hi, Option.bind_some, if_pos hjump, before?_eq_some horder hi hp hnext]
  exact ⟨htarget, hdest⟩

lemma landing?_of_staticTarget? {listing : Array Instruction} {position : Nat}
    (hi : listing[position]? = some i) (htarget : staticTarget? listing position = some t)
    (hdest : image[t]? = some Opcode.jumpdest.byte) :
    landing? image i (before? listing position) = some t := by
  rw [staticTarget?, hi, Option.bind_some] at htarget
  split_ifs at htarget with hjump
  exact landing?_eq_some_iff.mpr ⟨hjump, htarget, hdest⟩

section Listing

variable (h : Laid image cells) {position : Nat}

include h

/-- **The target of a jump that has been read is the one that the listing tells.** -/
lemma Laid.landsOn_iff (hi : (listed cells)[position]? = some i) :
    LandsOn image cells i t ↔
      staticTarget? (listed cells) position = some t ∧ image[t]? = some Opcode.jumpdest.byte := by
  have hhas : Has cells i := h.mem_listed.mp (Array.mem_of_getElem? hi)
  constructor
  · rintro ⟨p, hp, hnext, hlanding⟩
    exact staticTarget?_of_landing h.pairwise_listed hi (h.mem_listed.mpr hp) hnext hlanding
  · rintro ⟨htarget, hdest⟩
    have hlanding := landing?_of_staticTarget? hi htarget hdest
    obtain ⟨p, hp, hnext⟩ := finish_eq_of_landing? (h.decodeAt?_eq hhas) hlanding
    rw [hp] at hlanding
    exact ⟨p, h.mem_listed.mp (mem_of_before? hp), hnext, hlanding⟩

lemma Laid.step_of_leads (hij : Leads image cells i j) : Step image (listed cells) i j := by
  obtain ⟨hi, hj, ⟨hgo, hnext⟩ | hland⟩ := hij
  · exact .fall (h.mem_listed.mpr hi) (h.mem_listed.mpr hj) hgo hnext
  · obtain ⟨position, hposition⟩ := Array.getElem?_of_mem (h.mem_listed.mpr hi)
    obtain ⟨htarget, hdest⟩ := (h.landsOn_iff hposition).mp hland
    exact .jump hposition (h.mem_listed.mpr hj) htarget hdest

end Listing

namespace Explored

variable {started : Array Bool}

/-- **Every target has been dealt with**: an instruction has been read there, or covers it. -/
lemma landed (h : Explored image started cells []) (hi : Has cells i) (hland : LandsOn image cells i t) :
    (∃ j, Has cells j ∧ j.offset = t) ∨ ∃ j, Has cells j ∧ j.offset < t ∧ t < j.finish := by
  obtain ⟨p, hp, hnext, hlanding⟩ := hland
  obtain ⟨hjump, _, hdest⟩ := landing?_eq_some_iff.mp hlanding
  have hstarted : started[t]? = some true := by
    rcases h.jumps i hi hjump with hzero | ⟨q, hq, hqnext, htargets⟩
    · have := p.offset_lt_finish
      omega
    · obtain rfl := h.laid.eq_of_finish_eq hp hq (hnext.trans hqnext.symm)
      exact (htargets t hlanding).resolve_right (by simp)
  rcases h.dealt t hstarted with hinside | hj | hnone | ⟨j, hj, k, _, hlow, hhigh⟩
  · exact Or.inr (h.laid.owned t hinside)
  · exact Or.inl hj
  · simp [decodeAt?_of_jumpdest hdest] at hnone
  · -- a jump destination is a single byte, in which nothing else can start
    obtain rfl : ⟨t, .jumpdest, []⟩ = j := by simpa [decodeAt?_of_jumpdest hdest] using hj
    simp only [Instruction.finish, Instruction.size, List.length_nil] at hhigh
    omega

/-- **The first instruction is read if it can be**, because whatever is read is led to from it. -/
lemma first (h : Explored image started cells []) (hi : decodeAt? image 0 = some i) :
    ∃ j, Has cells j ∧ j.offset = 0 := by
  have hpos : 0 < image.size := lt_size_of_decodeAt? hi
  have hstarted := (h.begun hpos).resolve_right (by simp)
  rcases h.dealt 0 hstarted with hinside | hj | hnone | ⟨_, _, k, hk, _⟩
  · obtain ⟨j, _, hbefore, _⟩ := h.laid.owned 0 hinside
    omega
  · exact hj
  · simp [hi] at hnone
  · obtain ⟨j, hj, hzero, _⟩ := h.rooted k hk
    exact ⟨j, hj, hzero⟩

end Explored

/-- **The descent reads reachable code, and misses only what an overlap forces.**  Every instruction of
the listing is reached from offset zero by steps inside it.  Offset zero is read if it can be decoded;
behind an instruction that does not halt the next one is read, unless none can be decoded there or it
would cover the start of another one; and at the target of a jump that holds a jump destination an
instruction is read, unless the target is inside one. -/
theorem descend_exact (image : Image) (himage : image ≠ #[]) :
    ∃ d refused, descend image = .ok ⟨d, refused⟩ ∧
      (∀ j ∈ d.instructions, ∃ first ∈ d.instructions, first.offset = 0 ∧
        ReflTransGen (Step image d.instructions) first j) ∧
      ((decodeAt? image 0).isSome → ∃ i ∈ d.instructions, i.offset = 0) ∧
      (∀ i ∈ d.instructions, i.opcode.halts = false →
        (∃ j ∈ d.instructions, j.offset = i.finish) ∨ decodeAt? image i.finish = none ∨
          ∃ j, decodeAt? image i.finish = some j ∧
            ∃ k ∈ d.instructions, j.offset < k.offset ∧ k.offset < j.finish) ∧
      ∀ position t, staticTarget? d.instructions position = some t →
        image[t]? = some Opcode.jumpdest.byte →
        (∃ j ∈ d.instructions, j.offset = t) ∨ ∃ j ∈ d.instructions, j.offset < t ∧ t < j.finish := by
  obtain ⟨refused, heq⟩ := descend_eq himage
  obtain ⟨started, h⟩ := explored_surveyed image
  have hmem : ∀ i, i ∈ listed (surveyed image) ↔ Has (surveyed image) i :=
    fun i => h.laid.mem_listed
  refine ⟨_, refused, heq, ?_, ?_, ?_, ?_⟩
  · intro j hj
    obtain ⟨first, hfirst, hzero, hsteps⟩ := h.rooted j ((hmem j).mp hj)
    exact ⟨first, (hmem first).mpr hfirst, hzero,
      hsteps.lift id fun _ _ => h.laid.step_of_leads⟩
  · intro haccepted
    obtain ⟨i, hi⟩ := Option.isSome_iff_exists.mp haccepted
    simpa only [hmem] using h.first hi
  · intro i hi hgo
    have hsettled := (h.goesOn i ((hmem i).mp hi)).resolve_left (by simp [hgo])
    rcases hsettled with hj | hnone | ⟨j, hj, k, hk, hbounds⟩
    · exact Or.inl (by simpa only [hmem] using hj)
    · exact Or.inr (Or.inl hnone)
    · refine Or.inr (Or.inr ⟨j, hj, k, (hmem k).mpr hk, ?_⟩)
      rwa [offset_of_decodeAt? hj]
  · intro position t htarget hdest
    obtain ⟨i, hi⟩ : ∃ i, (listed (surveyed image))[position]? = some i := by
      obtain ⟨i, hi, _⟩ := Option.bind_eq_some_iff.mp htarget
      exact ⟨i, hi⟩
    have hland := (h.laid.landsOn_iff hi).mpr ⟨htarget, hdest⟩
    simpa only [hmem] using h.landed ((hmem i).mp (Array.mem_of_getElem? hi)) hland

/-- In the sample steps lead from the first push to all that is read, the target of the first jump among it;
and behind the target of the second one nothing is read, because the push there would cover the other. -/
theorem descend_exact_sample :
    overlapping ≠ #[] ∧
      descend overlapping = .ok ⟨⟨overlappingListing, 3⟩, [⟨8, ⟨0x61⟩, [0x5b, 0x00]⟩]⟩ ∧
      (∀ j ∈ overlappingListing, ∃ first ∈ overlappingListing, first.offset = 0 ∧
        ReflTransGen (Step overlapping overlappingListing) first j) ∧
      (∃ i ∈ overlappingListing, i.offset = 0) ∧
      (∃ k ∈ overlappingListing, 8 < k.offset ∧ k.offset < 11) ∧
      ∃ j ∈ overlappingListing, j.offset = 9 := by
  obtain ⟨d, refused, heq, hsteps, hzero, hnext, hlanding⟩ := descend_exact overlapping (by decide)
  have hreading := Except.ok.inj (heq.symm.trans descend_overlapping)
  obtain rfl : d = ⟨overlappingListing, 3⟩ := congrArg Reading.disassembly hreading
  refine ⟨by decide, descend_overlapping, hsteps, hzero (by decide), ?_, ?_⟩
  · -- the byte behind the second target can be decoded, and nothing has been read there
    have hdecode : decodeAt? overlapping 8 = some ⟨8, ⟨0x61⟩, [0x5b, 0x00]⟩ := by decide
    have hmem : ⟨7, .jumpdest, []⟩ ∈ overlappingListing := by simp [overlappingListing]
    rcases hnext ⟨7, .jumpdest, []⟩ hmem (by decide +kernel) with hread | hnone | ⟨j, hj, hcovers⟩
    · exact absurd hread (by decide)
    · exact absurd (hdecode.symm.trans hnone) (by simp)
    · obtain rfl := Option.some.inj (hdecode.symm.trans hj)
      exact hcovers
  · rcases hlanding 1 9 (by decide) (by decide) with hread | hinside
    · exact hread
    · exact absurd hinside (by decide)

end Disassembly

end BytecodeFlow
