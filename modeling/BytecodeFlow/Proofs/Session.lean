import Mathlib
import BytecodeFlow.Graph.Indexed
import BytecodeFlow.Proofs.Offsets
import BytecodeFlow.Proofs.Passes
import BytecodeFlow.Proofs.Prune

/-!
# Graphs that are changed step by step

An `IndexedGraph` keeps in tables what could be read off its nodes.  This file shows that the tables
stay right through any number of changes, in any order.

**Marks.**  Removing dead code picks marked items out of a list.  What is left is in order
(`Ascending.keepMarked`), and the new number of an item is where it then stands
(`getElem?_keepMarked`, `join_renumbering_eq_some_iff`), so that numbers keep their order.

**One change.**  `IndexedGraph.InStep` says that the tables are right.  A graph that has just been built
is in step (`inStep_of_build`), and stays so when a slot is overwritten (`InStep.setEdge`) and when
dead code is removed (`InStep.prune`).

**A session.**  `Session` holds of every graph that comes out of such changes.  By induction all are in
step (`Session.inStep`), and so no pass over one of them fails.
-/

namespace BytecodeFlow

/-! ## Marks -/

section Marks

variable {α β : Type} {items : Array α} {marks : Array Bool} {id n : Nat}

/-- **What stands at a place behind the change stood at the marked place before it.** -/
lemma getElem?_keepMarked (h : items.size = marks.size) (k : Nat) :
    (keepMarked items marks)[k]? = ((marked marks.toList)[k]?).bind (items[·]?) := by
  have hsome : ∀ id ∈ marked marks.toList, (items.toList[id]?.map fun x => x).isSome := by
    intro id hid
    simpa [h] using lt_of_mem_marked hid
  rw [keepMarked, ← Array.getElem?_toList, Array.toList_filterMap, Array.toList_zip,
    filterMap_zip_eq (fun x => x) _ _ (by simpa using h), getElem?_filterMap_of_isSome _ hsome]
  simp

lemma map_keepMarked_eq (f : α → β) (items : Array α) (marks : Array Bool) :
    (keepMarked items marks).map f
      = (items.zip marks).filterMap fun entry => if entry.2 then some (f entry.1) else none := by
  rw [keepMarked, Array.map_filterMap]
  congr 1
  funext entry
  cases entry.2 <;> rfl

lemma map_keepMarked (f : α → β) (items : Array α) (marks : Array Bool) :
    (keepMarked items marks).map f = keepMarked (items.map f) marks := by
  rw [map_keepMarked_eq, keepMarked, Array.zip_map_left, Array.filterMap_map]
  rfl

lemma keepMarked_sublist (items : Array α) (marks : Array Bool) :
    (keepMarked items marks).toList.Sublist items.toList := by
  obtain ⟨list⟩ := items
  obtain ⟨marks⟩ := marks
  simp only [keepMarked, List.zip_toArray, List.filterMap_toArray]
  induction list generalizing marks with
  | nil => simp
  | cons x list ih =>
      cases marks with
      | nil => simp
      | cons mark marks =>
          cases mark with
          | false => simpa using (ih marks).cons x
          | true => simpa using ih marks

/-- What is picked out of an ascending list ascends. -/
lemma Ascending.keepMarked {key : α → Nat} (h : Ascending key items) (marks : Array Bool) :
    Ascending key (keepMarked items marks) :=
  List.Pairwise.sublist (keepMarked_sublist items marks) h

/-- **The new number of an item is its place among the marked ones.** -/
lemma join_renumbering_eq_some_iff :
    ((Graph.renumbering marks)[id]?).join = some n ↔ (marked marks.toList)[n]? = some id := by
  constructor
  · intro h
    rw [Graph.renumbering, ← Array.foldl_toList, foldl_renumbering] at h
    rcases Nat.lt_or_ge id marks.size with hlt | hge
    · have hposition : markedPosition? marks.toList id = some n := by simpa [hlt] using h
      rw [markedPosition?] at hposition
      split_ifs at hposition with hid
      rw [← Option.some.inj hposition, List.getElem?_idxOf hid]
    · simp [Nat.not_lt.mpr hge] at h
  · intro h
    have hnodup : (marked marks.toList).Nodup := (marked_ascending _).imp Nat.ne_of_lt
    obtain ⟨hlt, rfl⟩ := List.getElem?_eq_some_iff.mp h
    rw [getElem?_renumbering marks (List.getElem_mem hlt), Option.join_some,
      hnodup.idxOf_getElem n hlt]

/-- The new numbers are in the order of the old ones. -/
lemma lt_of_join_renumbering {a b i j : Nat} (hab : a < b)
    (ha : ((Graph.renumbering marks)[a]?).join = some i)
    (hb : ((Graph.renumbering marks)[b]?).join = some j) : i < j := by
  rw [join_renumbering_eq_some_iff] at ha hb
  have hascending : Ascending (fun id => id) (marked marks.toList).toArray := marked_ascending _
  by_contra hji
  have := (hascending.le_iff (by simpa using hb) (by simpa using ha)).mpr (Nat.not_lt.mp hji)
  omega

end Marks

/-! ## One change -/

lemma Opcode.isTerminal_iff {op : Opcode} :
    op.isTerminal = true ↔ op ∈ [ret, revert, selfdestruct] := by
  simp [isTerminal, or_assoc]

lemma Node.edge_setEdge (node : Node) (kind k : EdgeKind) (target : Option Nat) :
    (node.setEdge kind target).edge k = if k = kind then target else node.edge k := by
  cases kind <;> cases k <;> rfl

namespace Graph

variable {g : Graph} {source : Nat}

lemma ascending_nodes_iff :
    Ascending Node.offset g.nodes ↔ Ascending Instruction.offset g.instructions := by
  simp only [Ascending, instructions, Array.toList_map, List.pairwise_map]
  rfl

/-- **A table of offsets that is made anew is right.** -/
lemma getElem?_positions_iff (h : Ascending Node.offset g.nodes) (offset id : Nat) :
    (CodeIndex.lastPositions g.instructions)[offset]? = some id ↔
      ∃ node, g.nodes[id]? = some node ∧ node.offset = offset := by
  rw [getElem?_lastPositions_iff (ascending_nodes_iff.mp h)]
  simp only [instructions, Array.getElem?_map, Option.map_eq_some_iff]
  constructor
  · rintro ⟨_, ⟨node, hnode, rfl⟩, hoffset⟩
    exact ⟨node, hnode, hoffset⟩
  · rintro ⟨node, hnode, hoffset⟩
    exact ⟨node.instruction, ⟨node, hnode, rfl⟩, hoffset⟩

/-- **Overwriting a slot changes no instruction**, and keeps a graph closed if the new target is one of
its nodes. -/
lemma setEdge_eq_ok (kind : EdgeKind) (target : Option Nat) (hsource : source < g.size) :
    ∃ changed, g.setEdge source kind target = .ok changed ∧
      changed.instructions = g.instructions ∧
      (g.Closed → (∀ x ∈ target, x < g.size) → changed.Closed) := by
  obtain ⟨node, hnode⟩ := nodes_eq_some_of_lt hsource
  refine ⟨⟨g.nodes.setIfInBounds source (node.setEdge kind target)⟩, ?_, ?_, ?_⟩
  · rw [setEdge, Graph.node, hnode]
    rfl
  · refine Array.ext_getElem? fun k => ?_
    simp only [instructions, Array.getElem?_map, Array.getElem?_setIfInBounds]
    split_ifs with hk hlt
    · subst hk
      rw [hnode]
      cases kind <;> rfl
    · exact absurd hsource hlt
    · rfl
  · intro hg htarget other hother x hx
    rw [size, Array.size_setIfInBounds]
    rcases Array.mem_or_eq_of_mem_setIfInBounds hother with hold | rfl
    · exact hg other hold x hx
    · obtain ⟨k, hk⟩ := Node.mem_targets.mp hx
      rw [Node.edge_setEdge] at hk
      split_ifs at hk
      · exact htarget x hk
      · exact hg node (Array.mem_of_getElem? hnode) x (Node.mem_targets.mpr ⟨k, hk⟩)

/-- Removing dead code keeps the nodes that the entry reaches, as they are marked by the search. -/
lemma Closed.prune_parts (hg : g.Closed) (hentry : g.entry < g.size) :
    ∃ marks, g.reachableFrom g.entry = .ok marks ∧ marks.size = g.size ∧
      g.prune = .ok (⟨(keepMarked g.nodes marks).map (renumber (renumbering marks))⟩,
        marks.count false) ∧
      Prunes g ⟨(keepMarked g.nodes marks).map (renumber (renumbering marks))⟩ (marks.count false)
        (marked marks.toList) := by
  obtain ⟨pruned, removed, live, heq, h⟩ := hg.prune_eq hentry
  obtain ⟨marks, hmarks, hsize, hreach⟩ := reach_eq (closed_iff_successors.mp hg) hentry
  have hlive : live = marked marks.toList := by
    refine h.ascending.eq_of_mem_iff (marked_ascending _) fun id => ?_
    rw [h.mem_live, mem_marked, Array.getElem?_toList, hreach]
  have hprune : g.prune = .ok (⟨(keepMarked g.nodes marks).map (renumber (renumbering marks))⟩,
      marks.count false) := by
    rw [prune, reachableFrom, hmarks, map_keepMarked_eq]
    rfl
  rw [hprune] at heq
  obtain ⟨rfl, rfl⟩ := Prod.mk.inj (Except.ok.inj heq)
  exact ⟨marks, hmarks, hsize, hprune, hlive ▸ h⟩

end Graph

namespace IndexedGraph

variable {t : IndexedGraph} {instructions : Array Instruction} {source id : Nat} {kind : EdgeKind}
  {target : Option Nat}

/-- Whether a node leaves the contract: it returns, reverts, or destroys the contract. -/
def LeavesAt (t : IndexedGraph) (id : Nat) : Prop :=
  ∃ i, t.instructions[id]? = some i ∧ i.opcode ∈ [Opcode.ret, Opcode.revert, Opcode.selfdestruct]

/-- **The tables say what the nodes say.** -/
structure InStep (t : IndexedGraph) : Prop where
  nonempty : 0 < t.size
  -- the instructions are those of the nodes, one for each, and so are the offsets
  instructions_eq : t.graph.instructions = t.instructions
  ascending : Ascending Node.offset t.graph.nodes
  nodeAt?_iff : ∀ offset id : Nat, t.nodeAt? offset = some id ↔
    ∃ node, t.graph.nodes[id]? = some node ∧ node.offset = offset
  entry_eq : t.entry = 0
  closed : t.graph.Closed
  exits_ascending : t.exits.toList.Pairwise (· < ·)
  mem_exits : ∀ id, id ∈ t.exits ↔ t.LeavesAt id

lemma leavesAt_iff : t.LeavesAt id ↔ (t.instructions[id]?).any (·.opcode.isTerminal) = true := by
  simp only [LeavesAt, ← Opcode.isTerminal_iff, Option.any_eq_true]

lemma build_eq_ok_iff :
    build instructions = .ok t ↔ ∃ g, Graph.build instructions = .ok g ∧
      t = ⟨g, instructions, CodeIndex.lastPositions instructions, 0, exitsOf instructions⟩ := by
  cases hbuild : Graph.build instructions with
  | error e => simp [build, hbuild, bind, Except.bind]
  | ok g => simp [build, hbuild, bind, Except.bind, pure, Except.pure, eq_comm]

/-- **A graph that has just been built is in step.** -/
lemma inStep_of_build (h : build instructions = .ok t) : t.InStep := by
  obtain ⟨g, hbuild, rfl⟩ := build_eq_ok_iff.mp h
  obtain ⟨hsome, hascending, _⟩ := Graph.build_eq_ok_iff.mp hbuild
  have hinstructions := Graph.instructions_of_build hbuild
  have hnodes : Ascending Node.offset g.nodes := by
    rwa [Graph.ascending_nodes_iff, hinstructions]
  exact
    { nonempty := by
        rw [size, Graph.size_of_build hbuild]
        exact Array.size_pos_iff.mpr hsome
      instructions_eq := hinstructions
      ascending := hnodes
      nodeAt?_iff := hinstructions ▸ Graph.getElem?_positions_iff hnodes
      entry_eq := rfl
      closed := Graph.closed_of_build hbuild
      exits_ascending := by
        rw [exitsOf, Array.toList_filter, Array.toList_range]
        exact List.pairwise_lt_range.filter _
      mem_exits := by
        intro id
        rw [leavesAt_iff, exitsOf, Array.mem_filter, Array.mem_range, and_iff_right_iff_imp]
        intro hany
        by_contra hge
        simp [Array.getElem?_eq_none (Nat.not_lt.mp hge)] at hany }

/-- **Overwriting a slot keeps a graph in step**, since no table depends on the slots. -/
lemma InStep.setEdge (h : t.InStep) (hsource : source < t.size) (htarget : ∀ x ∈ target, x < t.size) :
    ∃ changed, t.setEdge source kind target = .ok changed ∧ changed.InStep := by
  obtain ⟨g, hset, hinstructions, hclosed⟩ := Graph.setEdge_eq_ok kind target hsource
  have hsize : g.size = t.graph.size := by
    simpa [Graph.instructions, Graph.size] using congrArg Array.size hinstructions
  have hascending : Ascending Node.offset g.nodes := by
    rw [Graph.ascending_nodes_iff, hinstructions, ← Graph.ascending_nodes_iff]
    exact h.ascending
  refine ⟨{ t with graph := g }, ?_, ?_⟩
  · rw [IndexedGraph.setEdge, hset]
    rfl
  · exact
      { h with
        nonempty := by simpa only [size, hsize] using h.nonempty
        instructions_eq := hinstructions.trans h.instructions_eq
        ascending := hascending
        nodeAt?_iff := by
          intro offset id
          rw [← Graph.getElem?_positions_iff hascending, hinstructions,
            Graph.getElem?_positions_iff h.ascending]
          exact h.nodeAt?_iff offset id
        closed := hclosed h.closed htarget }

/-- **What is left of a graph in step is in step.** -/
lemma InStep.keep {marks : Array Bool} (h : t.InStep) (hsize : marks.size = t.graph.size)
    (hprunes : Graph.Prunes t.graph (t.keep marks).graph (marks.count false) (marked marks.toList)) :
    (t.keep marks).InStep := by
  have hinstructions : (t.keep marks).graph.instructions = keepMarked t.instructions marks := by
    rw [← h.instructions_eq, Graph.instructions, Graph.instructions, ← map_keepMarked,
      IndexedGraph.keep, Array.map_map]
    rfl
  have hascending : Ascending Node.offset (t.keep marks).graph.nodes := by
    rw [Graph.ascending_nodes_iff, hinstructions, ← h.instructions_eq]
    exact (Graph.ascending_nodes_iff.mp h.ascending).keepMarked marks
  have hlen : t.instructions.size = marks.size := by
    rw [← h.instructions_eq, Graph.instructions, Array.size_map, hsize, Graph.size]
  exact
    { nonempty := hprunes.embeds.entry_lt
      instructions_eq := hinstructions
      ascending := hascending
      nodeAt?_iff := Graph.getElem?_positions_iff hascending
      entry_eq := by
        have hfirst : (marked marks.toList)[0]? = some t.entry := by
          rw [h.entry_eq]
          exact (hprunes.getElem?_live hprunes.embeds.entry_lt).trans
            (congrArg some hprunes.embeds.entry_eq)
        rw [IndexedGraph.keep, join_renumbering_eq_some_iff.mpr hfirst, Option.getD_some]
      closed := hprunes.embeds.closed
      exits_ascending := by
        rw [IndexedGraph.keep, Array.toList_filterMap]
        refine h.exits_ascending.filterMap _ fun a b hab i hi j hj => ?_
        exact lt_of_join_renumbering hab hi hj
      mem_exits := by
        intro id
        simp only [IndexedGraph.keep, LeavesAt, Array.mem_filterMap, h.mem_exits,
          join_renumbering_eq_some_iff, getElem?_keepMarked hlen, Option.bind_eq_some_iff]
        constructor
        · rintro ⟨exit, ⟨i, hi, hleaves⟩, hid⟩
          exact ⟨i, ⟨exit, hid, hi⟩, hleaves⟩
        · rintro ⟨i, ⟨exit, hid, hi⟩, hleaves⟩
          exact ⟨exit, ⟨i, hi, hleaves⟩, hid⟩ }

/-- **Removing dead code keeps a graph in step**, and leaves the graph that is left when the tables are
not looked at. -/
lemma InStep.prune (h : t.InStep) :
    ∃ pruned removed, t.prune = .ok (pruned, removed) ∧
      t.graph.prune = .ok (pruned.graph, removed) ∧ pruned.InStep := by
  obtain ⟨marks, hmarks, hsize, hprune, hprunes⟩ := h.closed.prune_parts h.nonempty
  have hreach : t.graph.reachableFrom t.entry = .ok marks := h.entry_eq ▸ hmarks
  by_cases hnone : marks.count false = 0
  · refine ⟨t, 0, ?_, ?_, h⟩
    · simp only [IndexedGraph.prune, hreach, hnone, bind, Except.bind, if_true]
      rfl
    · refine h.closed.prune_of_reached h.nonempty fun i hi => ?_
      have hlt : i < marks.size := hsize.symm ▸ hi
      have hmark : marks[i] ≠ false := by
        intro hfalse
        exact Array.count_eq_zero.mp hnone (hfalse ▸ Array.getElem_mem hlt)
      rw [← hprunes.mem_live, mem_marked, Array.getElem?_toList, Array.getElem?_eq_getElem hlt]
      simpa using hmark
  · refine ⟨t.keep marks, marks.count false, ?_, hprune, h.keep hsize hprunes⟩
    simp only [IndexedGraph.prune, hreach, hnone, bind, Except.bind, if_false]
    rfl

/-! ## A session -/

/-- **The tables answer as the nodes would.** -/
structure Agrees (t : IndexedGraph) : Prop where
  entry_eq : t.entry = t.graph.entry
  exits_eq : t.exits.toList = t.graph.exits
  nodeAt?_eq : ∀ offset, t.nodeAt? offset = t.graph.nodeAt? offset
  isExit_eq : ∀ id, t.isExit id = t.graph.isExit id
  prune_eq : ∃ pruned removed, t.prune = .ok (pruned, removed) ∧
    t.graph.prune = .ok (pruned.graph, removed)

namespace InStep

lemma isExit_iff (h : t.InStep) (id : Nat) : t.isExit id = true ↔ t.LeavesAt id := by
  have hascending : Ascending (fun exit => exit) t.exits := h.exits_ascending
  simp only [← h.mem_exits, isExit, Search.isSome_position?_iff hascending, exists_eq_right]

lemma isExit_graph_iff (h : t.InStep) (id : Nat) : t.graph.isExit id = true ↔ t.LeavesAt id := by
  rw [leavesAt_iff, ← h.instructions_eq, Graph.instructions, Array.getElem?_map]
  rfl

lemma agrees (h : t.InStep) : t.Agrees where
  entry_eq := h.entry_eq
  exits_eq := by
    refine h.exits_ascending.eq_of_mem_iff (List.pairwise_lt_range.filter _) fun id => ?_
    rw [Array.mem_toList_iff, h.mem_exits, ← h.isExit_graph_iff, ← Graph.mem_exits]
  nodeAt?_eq := by
    intro offset
    refine Option.ext fun id => ?_
    rw [h.nodeAt?_iff, Graph.nodeAt?, Search.position?_eq_some_iff h.ascending]
  isExit_eq := by
    intro id
    rw [Bool.eq_iff_iff, h.isExit_iff, h.isExit_graph_iff]
  prune_eq := by
    obtain ⟨pruned, removed, hprune, hgraph, _⟩ := h.prune
    exact ⟨pruned, removed, hprune, hgraph⟩

end InStep

end IndexedGraph

/-- Whether a change names nodes of the graph only. -/
def Edit.Fits (t : IndexedGraph) : Edit → Prop
  | .setEdge source _ target => source < t.size ∧ ∀ x ∈ target, x < t.size
  | .prune => True

lemma IndexedGraph.InStep.edit {t : IndexedGraph} {e : Edit} (h : t.InStep) (hfits : e.Fits t) :
    ∃ changed, t.edit e = .ok changed ∧ changed.InStep := by
  cases e with
  | setEdge source kind target => exact h.setEdge hfits.1 hfits.2
  | prune =>
      obtain ⟨pruned, removed, hprune, _, hpruned⟩ := h.prune
      exact ⟨pruned, by rw [IndexedGraph.edit, hprune]; rfl, hpruned⟩

/-- **The graphs that come out of a session**: the graph of a list of instructions, and what changes
make of it, each of which names nodes that there are when it is made. -/
inductive Session (instructions : Array Instruction) : IndexedGraph → Prop where
  | build {t : IndexedGraph} (h : IndexedGraph.build instructions = .ok t) : Session instructions t
  | edit {t changed : IndexedGraph} (h : Session instructions t) (e : Edit) (hfits : e.Fits t)
      (hedit : t.edit e = .ok changed) : Session instructions changed

namespace Session

variable {instructions : Array Instruction} {t : IndexedGraph}

lemma inStep (h : Session instructions t) : t.InStep := by
  induction h with
  | build h => exact IndexedGraph.inStep_of_build h
  | edit _ e hfits hedit ih =>
      obtain ⟨changed, heq, hchanged⟩ := ih.edit hfits
      rw [hedit] at heq
      exact Except.ok.inj heq ▸ hchanged

/-- **A graph stays in step through a whole session.**  Its tables are those of its nodes and answer as
these would, every pass over it has an answer, and so has every further change. -/
theorem stays_in_step (h : Session instructions t) :
    t.InStep ∧ t.Agrees ∧ (∀ id, t.isExit id = true ↔ t.LeavesAt id) ∧ t.graph.Answers ∧
      ∀ e : Edit, e.Fits t → ∃ changed, t.edit e = .ok changed := by
  have hstep := h.inStep
  refine ⟨hstep, hstep.agrees, hstep.isExit_iff, hstep.closed.answers hstep.nonempty, ?_⟩
  intro e hfits
  obtain ⟨changed, hchanged, _⟩ := hstep.edit hfits
  exact ⟨changed, hchanged⟩

/-- A destination, an exit, and another exit behind it. -/
def sampleCode : Array Instruction :=
  #[⟨0, .jumpdest, []⟩, ⟨1, .revert, []⟩, ⟨2, .ret, []⟩]

/-- The first exit is bypassed and removed; the other one then has its number. -/
theorem stays_in_step_sample :
    ∃ t, Session sampleCode t ∧ t.InStep ∧ t.graph.Answers ∧ t.exits = #[1] ∧ t.isExit 1 = true ∧
      t.nodeAt? 1 = none ∧ t.nodeAt? 2 = some 1 := by
  obtain ⟨built, hbuilt, hsize⟩ : ∃ t, IndexedGraph.build sampleCode = .ok t ∧ t.size = 3 :=
    ⟨_, rfl, rfl⟩
  have hfirst : Session sampleCode built := .build hbuilt
  have hfits : (Edit.setEdge 0 .next (some 2)).Fits built := by simp [Edit.Fits, hsize]
  obtain ⟨_, _, _, _, hchange⟩ := stays_in_step hfirst
  obtain ⟨bypassed, hbypassed⟩ := hchange _ hfits
  have hsecond : Session sampleCode bypassed := hfirst.edit _ hfits hbypassed
  obtain ⟨_, _, _, _, hchange⟩ := stays_in_step hsecond
  obtain ⟨pruned, hpruned⟩ := hchange .prune trivial
  have hthird : Session sampleCode pruned := hsecond.edit .prune trivial hpruned
  obtain ⟨hstep, _, _, hanswers, _⟩ := stays_in_step hthird
  have hrun : ((IndexedGraph.build sampleCode).bind fun t =>
      (t.edit (.setEdge 0 .next (some 2))).bind fun t =>
        (t.edit .prune).map fun t => (t.exits, t.isExit 1, t.nodeAt? 1, t.nodeAt? 2))
      = .ok (#[1], true, none, some 1) := by cbv
  simp only [hbuilt, hbypassed, hpruned, Except.bind, Except.map, Except.ok.injEq,
    Prod.mk.injEq] at hrun
  exact ⟨pruned, hthird, hstep, hanswers, hrun⟩

end Session

end BytecodeFlow
