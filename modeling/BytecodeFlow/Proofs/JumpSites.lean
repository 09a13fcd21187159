import Mathlib
import BytecodeFlow.Proofs.Descent
import BytecodeFlow.Proofs.Session

/-!
# One answer to where an offset stands and where a jump goes

Three tables find the instruction at an offset: the disassembly halves its list, the index of the code
keeps a table of offsets, and so does the graph.  Two passes work out where the jumps go: the one that
makes the index and the one that builds the graph.  This file shows that they agree.

**Lists that do not ascend.**  No graph is built of them, and the complaint names the first two
neighbours that are out of order (`firstDescent?_eq_some`).

**Offsets.**  Each table holds a position for an offset exactly if the instruction there has it, so all
of them hold the same one (`OneAnswer`).

**Jumps.**  A slot for a branch is filled by finding the static target of the jump in the list
(`Graph.branch?_of_build`), which is also what makes a jump of the index resolved (`SiteOf`).  A jump
without a branch lacks the target, or lacks an instruction there, and not both.
-/

namespace BytecodeFlow

open Disassembly

variable {instructions : Array Instruction} {g : Graph} {position offset k : Nat}

namespace Graph

/-! ## Lists that do not ascend -/

lemma firstDescent?_eq_some {list : List Instruction} {a b : Instruction}
    (h : firstDescent? list = some (a, b)) :
    ∃ front rest, list = front ++ a :: b :: rest ∧ b.offset ≤ a.offset ∧
      (front ++ [a]).Pairwise fun i j => i.offset < j.offset := by
  simp only [← List.isChain_iff_pairwise]
  fun_induction firstDescent? list with
  | case1 x y rest hdescent =>
      obtain ⟨rfl, rfl⟩ := Prod.mk.inj (Option.some.inj h)
      exact ⟨[], rest, rfl, hdescent, .singleton _⟩
  | case2 x y rest hascent ih =>
      obtain ⟨front, tail, heq, hdescent, hfront⟩ := ih h
      refine ⟨x :: front, tail, by rw [heq, List.cons_append], hdescent, ?_⟩
      -- the pair that was found starts at `y` or behind it
      cases front with
      | nil =>
          obtain ⟨rfl, _⟩ := List.cons.inj heq
          simpa using Nat.not_le.mp hascent
      | cons z front =>
          obtain ⟨rfl, _⟩ := List.cons.inj heq
          exact List.isChain_cons_cons.mpr ⟨Nat.not_le.mp hascent, hfront⟩
  | case3 => cases h

/-- **The complaint about a list that does not ascend** is about its first two neighbours that do not. -/
lemma build_of_not_ascending (hsome : instructions ≠ #[])
    (h : ¬Ascending Instruction.offset instructions) :
    ∃ front a b rest, instructions.toList = front ++ a :: b :: rest ∧ b.offset ≤ a.offset ∧
      (front ++ [a]).Pairwise (fun i j => i.offset < j.offset) ∧
      build instructions = .error (.unorderedInstructions a.offset b.offset) := by
  rw [Ascending, ← firstDescent?_eq_none_iff] at h
  obtain ⟨⟨a, b⟩, hpair⟩ := Option.ne_none_iff_exists'.mp h
  obtain ⟨front, rest, heq, hdescent, hfront⟩ := firstDescent?_eq_some hpair
  refine ⟨front, a, b, rest, heq, hdescent, hfront, ?_⟩
  simp [build, hsome, hpair]

/-! ## Branches -/

/-- The node that the branch of a node leads to. -/
def branch? (g : Graph) (id : Nat) : Option Nat :=
  (g.nodes[id]?).bind (·.branch)

lemma instruction?_of_build (h : build instructions = .ok g) (id : Nat) :
    g.instruction? id = instructions[id]? := by
  rw [← instructions_of_build h, getElem?_instructions]

/-- **A branch leads to the node at the static target of the jump.** -/
lemma branch?_of_build (h : build instructions = .ok g) (id : Nat) :
    g.branch? id = (staticTarget? instructions id).bind
      (Search.position? instructions Instruction.offset) := by
  obtain ⟨_, _, rfl⟩ := build_eq_ok_iff.mp h
  rw [branch?, staticTarget?, Array.getElem?_mapIdx]
  cases instructions[id]? with
  | none => rfl
  | some i =>
      simp only [Option.map_some, Option.bind_some, nodeOf]
      split_ifs <;> rfl

lemma branch?_eq_some_iff (h : build instructions = .ok g) :
    g.branch? position = some k ↔ ∃ j, instructions[k]? = some j ∧
      staticTarget? instructions position = some j.offset := by
  rw [branch?_of_build h, Option.bind_eq_some_iff]
  simp only [Search.position?_eq_some_iff (build_eq_ok_iff.mp h).2.1]
  constructor
  · rintro ⟨target, htarget, j, hj, rfl⟩
    exact ⟨j, hj, htarget⟩
  · rintro ⟨j, hj, htarget⟩
    exact ⟨j.offset, htarget, j, hj, rfl⟩

end Graph

/-! ## Offsets -/

namespace CodeIndex

lemma position?_eq_some_iff (h : Ascending Instruction.offset instructions) :
    (ofInstructions instructions).position? offset = some k ↔
      ∃ i, instructions[k]? = some i ∧ i.offset = offset :=
  getElem?_lastPositions_iff h

lemma position?_eq_search (h : Ascending Instruction.offset instructions) (offset : Nat) :
    (ofInstructions instructions).position? offset
      = Search.position? instructions Instruction.offset offset := by
  refine Option.ext fun k => ?_
  rw [position?_eq_some_iff h, Search.position?_eq_some_iff h]

/-- The offsets of the jump destinations ascend with those of the list, so halving finds them. -/
lemma isJumpdest_iff (h : Ascending Instruction.offset instructions) :
    (ofInstructions instructions).isJumpdest offset = true ↔
      ∃ i ∈ instructions, i.offset = offset ∧ i.opcode = .jumpdest := by
  have hascending : Ascending id (ofInstructions instructions).jumpdests := by
    simp only [ofInstructions, Ascending, Array.toList_map, Array.toList_filter, List.pairwise_map]
    exact List.Pairwise.filter _ h
  rw [isJumpdest, Search.isSome_position?_iff hascending]
  simp only [ofInstructions, Array.mem_map, Array.mem_filter, Opcode.isJumpdest, decide_eq_true_eq,
    id_eq, exists_eq_right]
  constructor
  · rintro ⟨i, ⟨hi, hdest⟩, hoffset⟩
    exact ⟨i, hi, hoffset, hdest⟩
  · rintro ⟨i, hi, hoffset, hdest⟩
    exact ⟨i, ⟨hi, hdest⟩, hoffset⟩

end CodeIndex

/-- **All tables of a list of instructions give one answer** to where an offset stands. -/
structure OneAnswer (instructions : Array Instruction) (t : IndexedGraph) : Prop where
  index : ∀ offset k, (CodeIndex.ofInstructions instructions).position? offset = some k ↔
    ∃ i, instructions[k]? = some i ∧ i.offset = offset
  disassembly : ∀ undecoded offset, (Disassembly.mk instructions undecoded).position? offset
    = (CodeIndex.ofInstructions instructions).position? offset
  table : ∀ offset, t.nodeAt? offset = (CodeIndex.ofInstructions instructions).position? offset
  nodes : ∀ offset, t.graph.nodeAt? offset = (CodeIndex.ofInstructions instructions).position? offset
  isJumpdest : ∀ offset, (CodeIndex.ofInstructions instructions).isJumpdest offset = true ↔
    ∃ i ∈ instructions, i.offset = offset ∧ i.opcode = .jumpdest

lemma IndexedGraph.oneAnswer {t : IndexedGraph} (h : build instructions = .ok t) :
    OneAnswer instructions t := by
  have hagrees := (inStep_of_build h).agrees
  obtain ⟨g, hbuild, rfl⟩ := build_eq_ok_iff.mp h
  obtain ⟨_, hascending, _⟩ := Graph.build_eq_ok_iff.mp hbuild
  exact
    { index := fun _ _ => CodeIndex.position?_eq_some_iff hascending
      disassembly := fun _ offset => (CodeIndex.position?_eq_search hascending offset).symm
      table := fun _ => rfl
      nodes := fun offset => (hagrees.nodeAt?_eq offset).symm
      isJumpdest := fun _ => CodeIndex.isJumpdest_iff hascending }

/-! ## Jumps -/

/-- The positions of the jumps of a list, in order. -/
def jumpPositions (instructions : Array Instruction) : List Nat :=
  (List.range instructions.size).filter fun k => (instructions[k]?).any (·.opcode.isJump)

/-- **What the index says about a jump, in the words of the graph.** -/
structure SiteOf (instructions : Array Instruction) (g : Graph) (site : JumpSite) (position : Nat) :
    Prop where
  jump : ∃ i, instructions[position]? = some i ∧ site.offset = i.offset ∧ site.opcode = i.opcode
  target?_eq : site.destination.target? = staticTarget? instructions position
  resolved_iff : site.destination.isResolved = true ↔ ∃ k, g.branch? position = some k
  resolved : ∀ k, g.branch? position = some k → ∃ j, g.instruction? k = some j ∧
    site.destination.target? = some j.offset ∧
    (site.destination.isValid = true ↔ j.opcode = .jumpdest)
  dangling_iff : site.destination.isDangling = true ↔
    g.branch? position = none ∧ ∃ target, staticTarget? instructions position = some target
  dynamic_iff : site.destination.isDynamic = true ↔
    g.branch? position = none ∧ staticTarget? instructions position = none
  unresolved : g.branch? position = none →
    Xor (site.destination.isDangling = true) (site.destination.isDynamic = true)

lemma map_snd_jumps (instructions : Array Instruction) :
    (instructions.toList.zipIdx.filter (·.1.opcode.isJump)).map Prod.snd
      = jumpPositions instructions := by
  have hrange : List.range instructions.size = instructions.toList.zipIdx.map Prod.snd := by
    rw [List.zipIdx_map_snd, Array.length_toList, List.range_eq_range']
  rw [jumpPositions, hrange, List.filter_map]
  refine congrArg (List.map Prod.snd) (List.filter_congr fun entry hentry => ?_)
  have hat : instructions[entry.2]? = some entry.1 := by
    simpa using List.mem_zipIdx_iff_getElem?.mp hentry
  simp [hat]

lemma staticTarget?_of_isJump {i : Instruction} (hi : instructions[position]? = some i)
    (hjump : i.opcode.isJump = true) :
    staticTarget? instructions position = i.jumpTarget? (before? instructions position) := by
  simp [staticTarget?, hi, hjump]

/-- **The two passes agree on a jump.**  Both look for its static target, in tables that agree. -/
lemma destination_cases (h : Graph.build instructions = .ok g) {i : Instruction}
    (hi : instructions[position]? = some i) (hjump : i.opcode.isJump = true) {dest : Destination}
    (hdest : CodeIndex.destination instructions (CodeIndex.lastPositions instructions) i position = dest) :
    dest = .dynamic ∧ staticTarget? instructions position = none ∧ g.branch? position = none ∨
      (∃ target, dest = .dangling target ∧ staticTarget? instructions position = some target ∧
        g.branch? position = none) ∨
      ∃ k j, dest = .resolved j.offset j.opcode.isJumpdest ∧
        staticTarget? instructions position = some j.offset ∧ g.branch? position = some k ∧
        g.instruction? k = some j := by
  obtain ⟨_, hascending, _⟩ := Graph.build_eq_ok_iff.mp h
  have hbranch := Graph.branch?_of_build h position
  have hlookup : ∀ target, (CodeIndex.lastPositions instructions)[target]?
      = Search.position? instructions Instruction.offset target :=
    CodeIndex.position?_eq_search hascending
  rw [CodeIndex.destination, ← staticTarget?_of_isJump hi hjump] at hdest
  cases hstatic : staticTarget? instructions position with
  | none =>
      simp only [hstatic, Option.bind_none] at hdest hbranch
      exact Or.inl ⟨hdest.symm, rfl, hbranch⟩
  | some target =>
      simp only [hstatic, Option.bind_some, hlookup] at hdest hbranch
      cases hfound : Search.position? instructions Instruction.offset target with
      | none =>
          simp only [hfound] at hdest hbranch
          exact Or.inr (Or.inl ⟨target, hdest.symm, rfl, hbranch⟩)
      | some k =>
          obtain ⟨j, hj, rfl⟩ := (Search.position?_eq_some_iff hascending).mp hfound
          simp only [hfound, hj, Option.any_some] at hdest hbranch
          exact Or.inr (Or.inr ⟨k, j, hdest.symm, rfl, hbranch,
            (Graph.instruction?_of_build h k).trans hj⟩)

lemma siteOf (h : Graph.build instructions = .ok g) {i : Instruction}
    (hi : instructions[position]? = some i) (hjump : i.opcode.isJump = true) :
    SiteOf instructions g ⟨i.offset, i.opcode, CodeIndex.destination instructions
      (CodeIndex.lastPositions instructions) i position⟩ position := by
  have hsame : ∃ j, instructions[position]? = some j ∧ i.offset = j.offset ∧ i.opcode = j.opcode :=
    ⟨i, hi, rfl, rfl⟩
  generalize hdest : CodeIndex.destination instructions (CodeIndex.lastPositions instructions) i
    position = dest
  rcases destination_cases h hi hjump hdest with ⟨rfl, hstatic, hbranch⟩ |
    ⟨target, rfl, hstatic, hbranch⟩ | ⟨k, j, rfl, hstatic, hbranch, hj⟩
  · exact ⟨hsame, by simp [hstatic, Destination.target?], by simp [hbranch, Destination.isResolved],
      by simp [hbranch], by simp [hstatic, Destination.isDangling],
      by simp [hstatic, hbranch, Destination.isDynamic],
      fun _ => by simp [Xor, Destination.isDangling, Destination.isDynamic]⟩
  · exact ⟨hsame, by simp [hstatic, Destination.target?], by simp [hbranch, Destination.isResolved],
      by simp [hbranch], by simp [hstatic, hbranch, Destination.isDangling],
      by simp [hstatic, Destination.isDynamic],
      fun _ => by simp [Xor, Destination.isDangling, Destination.isDynamic]⟩
  · refine ⟨hsame, by simp [hstatic, Destination.target?], by simp [hbranch, Destination.isResolved],
      fun k' hk' => ?_, by simp [hbranch, Destination.isDangling],
      by simp [hbranch, Destination.isDynamic], by simp [hbranch]⟩
    obtain rfl : k = k' := Option.some.inj (hbranch.symm.trans hk')
    exact ⟨j, hj, rfl, by simp [Destination.isValid, Opcode.isJumpdest]⟩

lemma forall₂_siteOf (h : Graph.build instructions = .ok g) :
    List.Forall₂ (SiteOf instructions g) (CodeIndex.ofInstructions instructions).jumps
      (jumpPositions instructions) := by
  rw [← map_snd_jumps, CodeIndex.ofInstructions, List.forall₂_map_left_iff,
    List.forall₂_map_right_iff, List.forall₂_same]
  rintro ⟨i, position⟩ hmem
  obtain ⟨hmem, hjump⟩ := List.mem_filter.mp hmem
  exact siteOf h (by simpa using List.mem_zipIdx_iff_getElem?.mp hmem) hjump

/-! ## The agreement -/

/-- **The graph, the index and the disassembly agree on offsets and jumps.**  A graph is built of every
list that is not empty and ascends; of any other list none is, and the complaint names the first two
neighbours that do not ascend.  All tables then find the same position for an offset, and every jump of
the list is resolved in the index exactly if it has a branch in the graph. -/
theorem offsets_and_jumps_agree (instructions : Array Instruction) :
    (instructions = #[] → Graph.build instructions = .error .noInstructions) ∧
      (instructions ≠ #[] → ¬Ascending Instruction.offset instructions →
        ∃ front a b rest, instructions.toList = front ++ a :: b :: rest ∧ b.offset ≤ a.offset ∧
          (front ++ [a]).Pairwise (fun i j => i.offset < j.offset) ∧
          Graph.build instructions = .error (.unorderedInstructions a.offset b.offset)) ∧
      (instructions ≠ #[] → Ascending Instruction.offset instructions →
        ∃ t, IndexedGraph.build instructions = .ok t ∧ Graph.build instructions = .ok t.graph ∧
          OneAnswer instructions t ∧
          List.Forall₂ (SiteOf instructions t.graph) (CodeIndex.ofInstructions instructions).jumps
            (jumpPositions instructions)) := by
  refine ⟨?_, Graph.build_of_not_ascending, fun hsome hascending => ?_⟩
  · rintro rfl
    rfl
  · have hbuild := Graph.build_eq_ok_iff.mpr ⟨hsome, hascending, rfl⟩
    have hindexed := IndexedGraph.build_eq_ok_iff.mpr ⟨_, hbuild, rfl⟩
    exact ⟨_, hindexed, hbuild, IndexedGraph.oneAnswer hindexed, forall₂_siteOf hbuild⟩

/-- A conditional jump to a destination, a jump over the end of the code, and a jump with nothing pushed
before it. -/
def threeJumps : Array Instruction :=
  #[⟨0, ⟨0x60⟩, [0x03]⟩, ⟨2, .jumpi, []⟩, ⟨3, .jumpdest, []⟩, ⟨4, ⟨0x60⟩, [0x09]⟩, ⟨6, .jump, []⟩,
    ⟨7, .jumpi, []⟩]

/-- No graph without instructions, none of instructions that descend, and one of the sample, in which
only the first jump has a branch. -/
theorem offsets_and_jumps_agree_sample :
    Graph.build #[] = .error .noInstructions ∧
      (∃ previous offset, offset ≤ previous ∧ Graph.build #[⟨5, .jumpdest, []⟩, ⟨3, .stop, []⟩]
        = .error (.unorderedInstructions previous offset)) ∧
      ∃ t, IndexedGraph.build threeJumps = .ok t ∧ OneAnswer threeJumps t ∧
        List.Forall₂ (SiteOf threeJumps t.graph)
          [⟨2, .jumpi, .resolved 3 true⟩, ⟨6, .jump, .dangling 9⟩, ⟨7, .jumpi, .dynamic⟩] [1, 4, 5] := by
  have hjumps : (CodeIndex.ofInstructions threeJumps).jumps
      = [⟨2, .jumpi, .resolved 3 true⟩, ⟨6, .jump, .dangling 9⟩, ⟨7, .jumpi, .dynamic⟩] := by cbv
  have hpositions : jumpPositions threeJumps = [1, 4, 5] := by cbv
  obtain ⟨front, a, b, rest, _, hdescent, _, hbuild⟩ :=
    (offsets_and_jumps_agree #[⟨5, .jumpdest, []⟩, ⟨3, .stop, []⟩]).2.1 (by simp) (by simp [Ascending])
  obtain ⟨t, hindexed, _, hanswer, hsites⟩ :=
    (offsets_and_jumps_agree threeJumps).2.2 (by simp [threeJumps]) (by simp [Ascending, threeJumps])
  rw [hjumps, hpositions] at hsites
  exact ⟨(offsets_and_jumps_agree #[]).1 rfl, ⟨a.offset, b.offset, hdescent, hbuild⟩, t, hindexed,
    hanswer, hsites⟩

end BytecodeFlow
