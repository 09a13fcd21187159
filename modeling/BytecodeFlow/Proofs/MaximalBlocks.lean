import Mathlib
import BytecodeFlow.Proofs.BackBranches
import BytecodeFlow.Proofs.Totality

/-!
# The blocks are the one maximal partition

The blocks of a graph are made by one scan over the code.  This file says what they are without it.

**Cuts.**  `IsCut` is a cut of a list into groups, of which each runs on up to the first element where
it has to stop, and no further.  There is one such cut, `cutBehind` (`isCut_iff`), and a group of any
other cut that never runs on behind a stop lies within one of its groups (`exists_infix_cutBehind`).

**Blocks.**  `IsPartition` asks for such a cut of the nodes, with the offsets that belong to each group.
It holds of the blocks of a graph and of nothing else (`isPartition_iff`).

**Edges.**  In a graph as it was built a node at which no block stops leads to the next node only, so
every edge joins two neighbours in a block or starts at the end of one (`AsBuilt.edge_in_blocks`).
-/

namespace BytecodeFlow

/-! ## Cuts -/

/-- **A cut of a list at the elements where a group has to stop.** -/
structure IsCut {α : Type} (stops : α → Prop) (list : List α) (groups : List (List α)) : Prop where
  covers : groups.flatten = list
  nonempty : ∀ group ∈ groups, group ≠ []
  /-- No group runs on behind a stop. -/
  runs : ∀ group ∈ groups, ∀ x ∈ group.dropLast, ¬stops x
  /-- No group but the last ends before a stop. -/
  ends : ∀ group ∈ groups.dropLast, ∀ x ∈ group.getLast?, stops x

section Cuts

variable {α : Type} {stops : α → Prop} {ends : α → Bool} {x : α} {list group init rest : List α}
  {groups : List (List α)}

namespace IsCut

lemma nil : IsCut stops [] [] := by
  constructor <;> simp

lemma single (x : α) : IsCut stops [x] [[x]] := by
  constructor <;> simp

lemma cons_stop (hx : stops x) (h : IsCut stops list groups) :
    IsCut stops (x :: list) ([x] :: groups) where
  covers := by rw [List.flatten_cons, h.covers, List.singleton_append]
  nonempty := List.forall_mem_cons.mpr ⟨List.cons_ne_nil _ _, h.nonempty⟩
  runs := List.forall_mem_cons.mpr ⟨by simp, h.runs⟩
  ends := by
    cases groups with
    | nil => simp
    | cons group groups =>
        rw [List.dropLast_cons_of_ne_nil (List.cons_ne_nil _ _)]
        exact List.forall_mem_cons.mpr ⟨by simpa using hx, h.ends⟩

lemma cons_run (hx : ¬stops x) (h : IsCut stops list (group :: groups)) :
    IsCut stops (x :: list) ((x :: group) :: groups) where
  covers := by rw [← h.covers, List.flatten_cons, List.flatten_cons, List.cons_append]
  nonempty := List.forall_mem_cons.mpr
    ⟨List.cons_ne_nil _ _, (List.forall_mem_cons.mp h.nonempty).2⟩
  runs := by
    obtain ⟨hgroup, hgroups⟩ := List.forall_mem_cons.mp h.runs
    refine List.forall_mem_cons.mpr ⟨?_, hgroups⟩
    rw [List.dropLast_cons_of_ne_nil (h.nonempty group List.mem_cons_self)]
    exact List.forall_mem_cons.mpr ⟨hx, hgroup⟩
  ends := by
    have hends := h.ends
    cases groups with
    | nil => simp
    | cons next groups =>
        rw [List.dropLast_cons_of_ne_nil (List.cons_ne_nil _ _)] at hends ⊢
        obtain ⟨hgroup, hgroups⟩ := List.forall_mem_cons.mp hends
        refine List.forall_mem_cons.mpr ⟨?_, hgroups⟩
        rwa [List.getLast?_cons_of_ne_nil (h.nonempty group List.mem_cons_self)]

lemma tail (h : IsCut stops list (group :: groups)) : IsCut stops groups.flatten groups where
  covers := rfl
  nonempty := (List.forall_mem_cons.mp h.nonempty).2
  runs := (List.forall_mem_cons.mp h.runs).2
  ends := by
    cases groups with
    | nil => simp
    | cons next groups => exact (List.forall_mem_cons.mp h.ends).2

end IsCut

/-- **Cutting makes a cut.** -/
lemma isCut_cutBehind (ends : α → Bool) (list : List α) :
    IsCut (ends · = true) list (cutBehind ends list) := by
  fun_induction cutBehind ends list with
  | case1 => exact .nil
  | case2 x rest hx ih => exact ih.cons_stop hx
  | case3 x rest hx hnil ih =>
      obtain rfl : [] = rest := by simpa [hnil] using flatten_cutBehind ends rest
      exact .single x
  | case4 x rest hx group groups hgroups ih => exact (hgroups ▸ ih).cons_run hx

/-- A run up to an element opens the cut, with what follows if it does not have to stop there. -/
lemma cutBehind_append_cons (hinit : ∀ y ∈ init, ends y = false) (x : α) (rest : List α) :
    cutBehind ends (init ++ x :: rest) =
      if ends x then (init ++ [x]) :: cutBehind ends rest
      else (init ++ x :: (cutBehind ends rest).headD []) :: (cutBehind ends rest).tail := by
  induction init with
  | nil =>
      rw [List.nil_append, cutBehind]
      cases cutBehind ends rest <;> rfl
  | cons y init ih =>
      obtain ⟨hy, hinit⟩ := List.forall_mem_cons.mp hinit
      rw [List.cons_append, cutBehind, hy, if_neg Bool.false_ne_true, ih hinit]
      split_ifs <;> rfl

/-- **There is one cut.** -/
lemma isCut_iff : IsCut (ends · = true) list groups ↔ groups = cutBehind ends list := by
  refine ⟨fun h => ?_, fun h => h ▸ isCut_cutBehind ends list⟩
  induction groups generalizing list with
  | nil => rw [← h.covers]; rfl
  | cons group groups ih =>
      obtain ⟨init, x, rfl⟩ :=
        (List.eq_nil_or_concat' group).resolve_left (h.nonempty group List.mem_cons_self)
      have hinit : ∀ y ∈ init, ends y = false := by
        simpa using h.runs _ List.mem_cons_self
      rw [← h.covers, List.flatten_cons, List.append_assoc, List.singleton_append,
        cutBehind_append_cons hinit]
      cases groups with
      | nil => split_ifs <;> rfl
      | cons next groups =>
          have hx : ends x = true := h.ends (init ++ [x]) List.mem_cons_self x (by simp)
          rw [if_pos hx, ← ih h.tail]

/-- **A group that never runs on behind a stop lies within a group of the cut.** -/
lemma exists_infix_cutBehind
    (h : ∀ group ∈ groups, group ≠ [] ∧ ∀ x ∈ group.dropLast, ends x = false) :
    ∀ group ∈ groups, ∃ larger ∈ cutBehind ends groups.flatten, group <:+: larger := by
  induction groups with
  | nil => simp
  | cons first groups ih =>
      obtain ⟨⟨hne, hruns⟩, hgroups⟩ := List.forall_mem_cons.mp h
      obtain ⟨init, x, rfl⟩ := (List.eq_nil_or_concat' first).resolve_left hne
      have hinit : ∀ y ∈ init, ends y = false := by simpa using hruns
      rw [List.flatten_cons, List.append_assoc, List.singleton_append, cutBehind_append_cons hinit]
      split_ifs with hx
      · refine List.forall_mem_cons.mpr ⟨⟨_, List.mem_cons_self, List.infix_rfl⟩, fun group hgroup => ?_⟩
        obtain ⟨larger, hlarger, hwithin⟩ := ih hgroups group hgroup
        exact ⟨larger, List.mem_cons_of_mem _ hlarger, hwithin⟩
      · refine List.forall_mem_cons.mpr
          ⟨⟨_, List.mem_cons_self, ⟨[], (cutBehind ends groups.flatten).headD [], by simp⟩⟩,
            fun group hgroup => ?_⟩
        obtain ⟨larger, hlarger, hwithin⟩ := ih hgroups group hgroup
        cases hcut : cutBehind ends groups.flatten with
        | nil => simp [hcut] at hlarger
        | cons head tail =>
            rw [hcut] at hlarger
            rcases List.mem_cons.mp hlarger with rfl | htail
            · exact ⟨_, List.mem_cons_self, hwithin.trans ⟨init ++ [x], [], by simp⟩⟩
            · exact ⟨larger, List.mem_cons_of_mem _ htail, hwithin⟩

end Cuts

/-! ## Blocks -/

lemma exists_of_forall₂ {α β : Type} {R : α → β → Prop} {xs : List α} {ys : List β} {x : α}
    (h : List.Forall₂ R xs ys) (hx : x ∈ xs) : ∃ y ∈ ys, R x y := by
  induction h with
  | nil => cases hx
  | cons hxy _ ih =>
      rcases List.mem_cons.mp hx with rfl | hx
      · exact ⟨_, List.mem_cons_self, hxy⟩
      · obtain ⟨y, hy, hR⟩ := ih hx
        exact ⟨y, List.mem_cons_of_mem _ hy, hR⟩

namespace Graph

variable {g : Graph} {blocks : List Block} {block : Block} {u v : Nat}

/-- **Whether a block has to stop at a node**: it has a branch, it is a call behind which control
resumes, or it leaves the contract. -/
def Stops (g : Graph) (id : Nat) : Prop :=
  ∃ node, g.nodes[id]? = some node ∧
    (node.branch ≠ none ∨ node.callContinuation ≠ none ∨ g.isExit id = true)

lemma endsBlock_iff (id : Nat) : g.endsBlock id = true ↔ g.Stops id := by
  rw [endsBlock, Stops]
  cases g.nodes[id]? with
  | none => simp
  | some node => simp [Option.isSome_iff_ne_none, or_assoc]

/-- **What a block says of its nodes**: where the first one is, and where the last one leads. -/
structure IsBlock (g : Graph) (block : Block) : Prop where
  start : ∀ first ∈ block.nodes.head?, g.offset first = .ok block.start
  successors : ∀ last ∈ block.nodes.getLast?,
    List.Forall₂ (fun target offset => g.offset target = .ok offset) (g.successors last)
      block.successors

/-- **A maximal partition of the nodes into blocks.** -/
structure IsPartition (g : Graph) (blocks : List Block) : Prop where
  cut : IsCut g.Stops (List.range g.size) (blocks.map Block.nodes)
  block : ∀ block ∈ blocks, g.IsBlock block

lemma isBlock_iff (h : block.nodes ≠ []) : g.IsBlock block ↔ g.blockOf block.nodes = .ok block := by
  obtain ⟨start, nodes, successors⟩ := block
  obtain ⟨first, rest, rfl⟩ := List.exists_cons_of_ne_nil h
  have hlast := List.getLast?_eq_some_getLast h
  rw [blockOf, hlast, List.head?_cons]
  constructor
  · intro hblock
    have hstart := hblock.start first rfl
    have hsuccessors := mapM_eq_ok_iff.mpr (hblock.successors _ hlast)
    simp only [hstart, hsuccessors, bind, Except.bind, pure, Except.pure]
  · intro hblock
    obtain ⟨offset, hstart, hblock⟩ := exists_of_bind_eq_ok hblock
    obtain ⟨offsets, hsuccessors, hblock⟩ := exists_of_bind_eq_ok hblock
    obtain ⟨rfl, -, rfl⟩ := Block.mk.inj (Except.ok.inj hblock)
    refine ⟨fun id hid => ?_, fun id hid => ?_⟩
    · obtain rfl : first = id := Option.some.inj hid
      exact hstart
    · obtain rfl := Option.some.inj (hlast.symm.trans hid)
      exact mapM_eq_ok_iff.mp hsuccessors

lemma blocks_eq_ok_iff : g.blocks = .ok blocks ↔
    blocks.map Block.nodes = cutBehind g.endsBlock g.ids ∧
      ∀ block ∈ blocks, g.blockOf block.nodes = .ok block := by
  constructor
  · intro h
    have hnodes := map_of_mapM_eq_ok nodes_of_blockOf _ _ h
    rw [Graph.blocks, ← hnodes, mapM_eq_ok_iff, List.forall₂_map_left_iff, List.forall₂_same] at h
    exact ⟨hnodes, h⟩
  · rintro ⟨hnodes, hblocks⟩
    rw [Graph.blocks, ← hnodes, mapM_eq_ok_iff, List.forall₂_map_left_iff, List.forall₂_same]
    exact hblocks

/-- **The blocks of a graph are its maximal partition.** -/
lemma isPartition_iff : g.IsPartition blocks ↔ g.blocks = .ok blocks := by
  have hstops : g.Stops = fun id => g.endsBlock id = true :=
    funext fun id => propext (endsBlock_iff id).symm
  have hcut : IsCut g.Stops (List.range g.size) (blocks.map Block.nodes) ↔
      blocks.map Block.nodes = cutBehind g.endsBlock g.ids := by
    rw [hstops]
    exact isCut_iff
  have hblock : IsCut g.Stops (List.range g.size) (blocks.map Block.nodes) → ∀ block ∈ blocks,
      (g.IsBlock block ↔ g.blockOf block.nodes = .ok block) := fun h block hmem =>
    isBlock_iff (h.nonempty _ (List.mem_map_of_mem hmem))
  rw [blocks_eq_ok_iff, ← hcut]
  constructor
  · exact fun h => ⟨h.cut, fun block hmem => (hblock h.cut block hmem).mp (h.block block hmem)⟩
  · exact fun ⟨h, hblocks⟩ => ⟨h, fun block hmem => (hblock h block hmem).mpr (hblocks block hmem)⟩

/-! ## Edges -/

lemma eq_succ_of_infix_range {n : Nat} (h : [u, v] <:+: List.range n) : v = u + 1 := by
  have hchain := (List.isChain_range (fun a b => b = a + 1) n).mpr fun _ _ => rfl
  simpa using hchain.infix h

lemma AsBuilt.eq_succ_of_not_stops (hg : g.AsBuilt) (hu : ¬g.Stops u) (hv : v ∈ g.successors u) :
    v = u + 1 := by
  obtain ⟨node, hnode⟩ := nodes_eq_some_of_lt (lt_size_of_mem_successors hv)
  have hnone : node.branch = none ∧ node.callContinuation = none := by
    simp only [Stops, hnode, Option.some.injEq, exists_eq_left', not_or, not_not] at hu
    exact ⟨hu.1, hu.2.1⟩
  rw [successors_eq hnode, Node.targets_eq, hnone.1, hnone.2, hg.next u node hnode] at hv
  split_ifs at hv <;> simp_all

/-- **The blocks lose no edge of a graph as it was built.** -/
lemma AsBuilt.edge_in_blocks (hg : g.AsBuilt) (h : g.IsPartition blocks) (hv : v ∈ g.successors u) :
    ∃ block ∈ blocks, [u, v] <:+: block.nodes ∨
      (block.nodes.getLast? = some u ∧ ∃ offset ∈ block.successors, g.offset v = .ok offset) := by
  have hmem : u ∈ (blocks.map Block.nodes).flatten := by
    rw [h.cut.covers]
    exact List.mem_range.mpr (lt_size_of_mem_successors hv)
  obtain ⟨nodes, hnodes, hu⟩ := List.mem_flatten.mp hmem
  obtain ⟨block, hblock, rfl⟩ := List.mem_map.mp hnodes
  refine ⟨block, hblock, ?_⟩
  obtain ⟨before, after, hsplit⟩ := List.append_of_mem hu
  cases after with
  | nil =>
      have hlast : block.nodes.getLast? = some u := by simp [hsplit]
      obtain ⟨offset, hoffset, hv⟩ := exists_of_forall₂ ((h.block block hblock).successors u hlast) hv
      exact .inr ⟨hlast, offset, hoffset, hv⟩
  | cons w after =>
      have hwithin : [u, w] <:+: block.nodes := ⟨before, after, by simp [hsplit]⟩
      have hw : w = u + 1 := by
        have hrange := List.infix_of_mem_flatten hnodes
        rw [h.cut.covers] at hrange
        exact eq_succ_of_infix_range (hwithin.trans hrange)
      have hstops : ¬g.Stops u := h.cut.runs _ hnodes u (by simp [hsplit])
      rw [hg.eq_succ_of_not_stops hstops hv, ← hw]
      exact .inl hwithin

/-- **The blocks of a closed graph are the one maximal partition of its nodes**: no other list of blocks
is one, and every group of nodes in order that never runs on behind a stop lies within a block.  In a
graph as it was built every edge joins two neighbours in a block, or its target is among the successors
of a block that ends at its source. -/
theorem blocks_maximal_partition (g : Graph) (hg : g.Closed) :
    ∃ blocks, g.blocks = .ok blocks ∧ g.IsPartition blocks ∧
      (∀ others, g.IsPartition others → others = blocks) ∧
      (∀ groups : List (List Nat), groups.flatten = List.range g.size →
        (∀ group ∈ groups, group ≠ [] ∧ ∀ id ∈ group.dropLast, ¬g.Stops id) →
        ∀ group ∈ groups, ∃ block ∈ blocks, group <:+: block.nodes) ∧
      ∀ instructions, build instructions = .ok g → ∀ u, ∀ v ∈ g.successors u,
        ∃ block ∈ blocks, [u, v] <:+: block.nodes ∨
          (block.nodes.getLast? = some u ∧ ∃ offset ∈ block.successors, g.offset v = .ok offset) := by
  obtain ⟨blocks, hblocks⟩ := hg.blocks_eq_ok
  have hpartition := isPartition_iff.mpr hblocks
  refine ⟨blocks, hblocks, hpartition, fun others hothers => ?_,
    fun groups hflatten hgroups group hgroup => ?_,
    fun instructions hbuild u v hv => (asBuilt_of_build hbuild).edge_in_blocks hpartition hv⟩
  · exact Except.ok.inj ((isPartition_iff.mp hothers).symm.trans hblocks)
  · have hruns : ∀ group ∈ groups, group ≠ [] ∧ ∀ id ∈ group.dropLast, g.endsBlock id = false := by
      simpa only [← endsBlock_iff, Bool.not_eq_true] using hgroups
    obtain ⟨nodes, hnodes, hwithin⟩ := exists_infix_cutBehind hruns group hgroup
    rw [hflatten, ← ids, ← (blocks_eq_ok_iff.mp hblocks).1] at hnodes
    obtain ⟨block, hblock, rfl⟩ := List.mem_map.mp hnodes
    exact ⟨block, hblock, hwithin⟩

/-- A call, a jump over an exit, and a block that the end of the code cuts short. -/
def fourBlocks : Array Instruction :=
  #[⟨0, .call, []⟩, ⟨1, ⟨0x60⟩, [0x05]⟩, ⟨3, .jumpi, []⟩, ⟨4, .revert, []⟩, ⟨5, .jumpdest, []⟩,
    ⟨6, .jumpdest, []⟩]

/-- The branch over the exit is kept by the block of the jump. -/
theorem blocks_maximal_fourBlocks :
    ∃ g blocks, build fourBlocks = .ok g ∧ g.Closed ∧ g.blocks = .ok blocks ∧ g.IsPartition blocks ∧
      blocks = [⟨0, [0], [1, 1]⟩, ⟨1, [1, 2], [4, 5]⟩, ⟨4, [3], [5]⟩, ⟨5, [4, 5], []⟩] ∧
      g.branch? 2 = some 4 ∧ ∀ u, ∀ v ∈ g.successors u, ∃ block ∈ blocks, [u, v] <:+: block.nodes ∨
        (block.nodes.getLast? = some u ∧ ∃ offset ∈ block.successors, g.offset v = .ok offset) := by
  obtain ⟨g, hbuild, hrun, hbranch⟩ : ∃ g, build fourBlocks = .ok g ∧
      g.blocks = .ok [⟨0, [0], [1, 1]⟩, ⟨1, [1, 2], [4, 5]⟩, ⟨4, [3], [5]⟩, ⟨5, [4, 5], []⟩] ∧
      g.branch? 2 = some 4 :=
    ⟨⟨fourBlocks.mapIdx (nodeOf fourBlocks)⟩, by cbv, by cbv, by cbv⟩
  have hclosed := closed_of_build hbuild
  obtain ⟨blocks, hblocks, hpartition, _, _, hedges⟩ := blocks_maximal_partition g hclosed
  obtain rfl := Except.ok.inj (hblocks.symm.trans hrun)
  exact ⟨g, _, hbuild, hclosed, hblocks, hpartition, rfl, hbranch, hedges fourBlocks hbuild⟩

end Graph

end BytecodeFlow
