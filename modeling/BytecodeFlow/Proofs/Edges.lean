import Mathlib
import BytecodeFlow.Graph.Reversed

/-!
# The edges of a graph whose slots lead to its nodes

`Graph.Closed` says that no slot of a graph leads out of it.  This file collects what follows for
the views of the edges.

**Successors.**  `mem_successors` reads an edge off a slot; in a closed graph every successor is a
node (`Closed.lt_of_mem_successors`).

**All edges.**  `mem_edges` reads the list of all edges off the slots.  In a closed graph it passes
the check for edges that lead nowhere (`Closed.checkEdges_eq`), and cutting the node numbers to 32
bits changes nothing (`Closed.wrapped_eq`).

**Incoming edges.**  A table that the edges of a list are added to holds, for every node, those that lead
to it (`getElem?_foldl_modify`).  So the reversed graph has an edge back for every edge
(`Closed.reversed_eq`), the last one stored in front (`Closed.reversed_eq_stored`).
-/

namespace BytecodeFlow

/-! ## Successors -/

/-- What a node leads to is in one of its slots. -/
lemma Node.mem_targets {node : Node} {t : Nat} :
    t ∈ node.targets ↔ ∃ kind, node.edge kind = some t := by
  simp only [Node.targets, EdgeKind.all, List.mem_filterMap, List.mem_cons, List.not_mem_nil,
    or_false]
  constructor
  · rintro ⟨kind, _, h⟩
    exact ⟨kind, h⟩
  · rintro ⟨kind, h⟩
    exact ⟨kind, by cases kind <;> simp, h⟩

/-- The edges of a node keep the slot beside the target. -/
lemma Node.mem_edges {node : Node} {kind : EdgeKind} {t : Nat} :
    (kind, t) ∈ node.edges ↔ node.edge kind = some t := by
  cases kind <;> simp [Node.edges, EdgeKind.all]

/-- A node is its instruction and its three slots. -/
lemma Node.ext_edge {a b : Node} (hinstruction : a.instruction = b.instruction)
    (hedge : ∀ kind, a.edge kind = b.edge kind) : a = b := by
  have hnext := hedge .next
  have hbranch := hedge .branch
  have hcall := hedge .callContinuation
  cases a
  cases b
  simp_all only [Node.edge]

lemma Node.edge_mapTargets (f : Nat → Nat) (node : Node) (kind : EdgeKind) :
    (node.mapTargets f).edge kind = (node.edge kind).map f := by
  cases kind <;> rfl

lemma Node.mapTargets_mapTargets (f f' : Nat → Nat) (node : Node) :
    (node.mapTargets f).mapTargets f' = node.mapTargets (f' ∘ f) := by
  simp only [Node.mapTargets, Option.map_map]

/-- Renumbering leaves a node alone that leads to nothing that is renumbered. -/
lemma Node.mapTargets_eq_self {f : Nat → Nat} {node : Node} (h : ∀ t ∈ node.targets, f t = t) :
    node.mapTargets f = node := by
  refine Node.ext_edge rfl fun kind => ?_
  rw [Node.edge_mapTargets]
  cases hedge : node.edge kind with
  | none => rfl
  | some t => simp [h t (Node.mem_targets.mpr ⟨kind, hedge⟩)]

namespace Graph

variable {g : Graph} {id source target : Nat}

/-- The numbers below the size are those of nodes. -/
lemma nodes_eq_some_of_lt (h : id < g.size) : ∃ node, g.nodes[id]? = some node :=
  ⟨g.nodes[id], Array.getElem?_eq_getElem h⟩

lemma lt_size_of_eq_some {node : Node} (h : g.nodes[id]? = some node) : id < g.size :=
  (Array.getElem?_eq_some_iff.mp h).1

lemma successors_eq {node : Node} (h : g.nodes[id]? = some node) :
    g.successors id = node.targets := by
  rw [successors, h]

/-- Nothing leads on from a number that is out of range. -/
lemma successors_eq_nil (h : g.size ≤ id) : g.successors id = [] := by
  rw [successors, Array.getElem?_eq_none h]

/-- **A successor is what a slot leads to.** -/
lemma mem_successors :
    target ∈ g.successors source ↔
      ∃ node kind, g.nodes[source]? = some node ∧ node.edge kind = some target := by
  rcases Nat.lt_or_ge source g.size with h | h
  · obtain ⟨node, hnode⟩ := nodes_eq_some_of_lt h
    simp [successors_eq hnode, Node.mem_targets, hnode]
  · simp [successors_eq_nil h, Array.getElem?_eq_none h]

/-- Only nodes lead on. -/
lemma lt_size_of_mem_successors (h : target ∈ g.successors source) : source < g.size := by
  obtain ⟨node, kind, hnode, _⟩ := mem_successors.mp h
  exact lt_size_of_eq_some hnode

/-- Only nodes leave the contract. -/
lemma lt_size_of_isExit (h : g.isExit id = true) : id < g.size := by
  rcases Nat.lt_or_ge id g.size with hlt | hge
  · exact hlt
  · simp [isExit, instruction?, Array.getElem?_eq_none hge] at h

/-- The exits are listed by looking at every node. -/
lemma mem_exits : id ∈ g.exits ↔ g.isExit id = true := by
  simp only [exits, ids, List.mem_filter, List.mem_range, and_iff_right_iff_imp]
  exact lt_size_of_isExit

/-- **In a closed graph every successor is a node.** -/
lemma Closed.lt_of_mem_successors (hg : g.Closed) (h : target ∈ g.successors source) :
    target < g.size := by
  obtain ⟨node, kind, hnode, hedge⟩ := mem_successors.mp h
  exact hg node (Array.mem_of_getElem? hnode) target (Node.mem_targets.mpr ⟨kind, hedge⟩)

/-- **A graph is closed if its successor function stays among its nodes**, which is what the searches rely
on. -/
lemma closed_iff_successors :
    g.Closed ↔ ∀ source < g.size, ∀ target ∈ g.successors source, target < g.size := by
  constructor
  · exact fun hg source _ target h => hg.lt_of_mem_successors h
  · intro h node hnode target htarget
    obtain ⟨source, hlt, rfl⟩ := Array.mem_iff_getElem.mp hnode
    exact h source hlt target (by rwa [successors_eq (Array.getElem?_eq_getElem hlt)])

instance (g : Graph) : Decidable g.Closed :=
  inferInstanceAs (Decidable (∀ node ∈ g.nodes, ∀ target ∈ node.targets, target < g.size))

/-- A small graph to try statements on: a loop around a call with two ways out, an exit that the code
runs on from, and an exit that leads to the entry and that nothing leads to. -/
def sample : Graph where
  nodes := #[
    ⟨⟨0, .jumpdest, []⟩, some 1, none, none⟩,
    ⟨⟨1, .jumpi, []⟩, some 3, some 5, none⟩,
    ⟨⟨2, .revert, []⟩, some 0, none, none⟩,
    ⟨⟨3, .call, []⟩, some 4, none, some 4⟩,
    ⟨⟨4, .jumpi, []⟩, some 5, some 1, none⟩,
    ⟨⟨5, .ret, []⟩, some 6, none, none⟩,
    ⟨⟨6, .stop, []⟩, none, none, none⟩]

/-! ## All edges -/

/-- **The list of all edges holds what the slots lead to.** -/
lemma mem_edges {kind : EdgeKind} :
    ⟨source, kind, target⟩ ∈ g.edges ↔
      ∃ node, g.nodes[source]? = some node ∧ node.edge kind = some target := by
  simp only [edges, List.mem_flatMap, List.mem_map, Prod.exists, List.mem_zipIdx_iff_getElem?,
    Array.getElem?_toList]
  constructor
  · rintro ⟨node, i, hnode, k, t, hedge, heq⟩
    obtain ⟨rfl, rfl, rfl⟩ := Edge.mk.inj heq
    exact ⟨node, hnode, Node.mem_edges.mp hedge⟩
  · rintro ⟨node, hnode, hedge⟩
    exact ⟨node, source, hnode, kind, target, Node.mem_edges.mpr hedge, rfl⟩

/-- The list of all edges and the successors tell the same. -/
lemma mem_successors_iff_edges :
    target ∈ g.successors source ↔ ∃ kind, ⟨source, kind, target⟩ ∈ g.edges := by
  simp only [mem_successors, mem_edges]
  exact exists_comm

/-- No edge of a closed graph leads out of it. -/
lemma Closed.edge_target_lt (hg : g.Closed) {edge : Edge} (h : edge ∈ g.edges) :
    edge.target < g.size :=
  hg.lt_of_mem_successors (mem_successors_iff_edges.mpr ⟨edge.kind, h⟩)

/-- A closed graph passes the check that comes before the passes over all edges. -/
lemma Closed.checkEdges_eq (hg : g.Closed) : g.checkEdges = .ok () := by
  have hnone : (g.edges.find? fun edge => g.size ≤ edge.target) = none := by
    rw [List.find?_eq_none]
    intro edge hedge
    simpa using hg.edge_target_lt hedge
  rw [checkEdges, hnone]

/-- Cutting the node numbers of a closed graph to 32 bits changes none of them. -/
lemma Closed.map_wrap_eq (hg : g.Closed) : g.nodes.map (Node.mapTargets g.wrap) = g.nodes := by
  rw [Array.map_congr_left (g := id), Array.map_id]
  intro node hnode
  refine Node.mapTargets_eq_self fun t ht => ?_
  simp [wrap, hg node hnode t ht]

/-- **A closed graph is its own copy with node numbers of 32 bits.** -/
lemma Closed.wrapped_eq (hg : g.Closed) : g.wrapped = .ok g := by
  simp only [wrapped, hg.map_wrap_eq, hg.checkEdges_eq]
  rfl

/-! ## Incoming edges -/

/-- Adding the edges of a list to a table adds to each entry those that lead to its node, in order. -/
lemma getElem?_foldl_modify {α : Type} (add : α → Edge → α) (list : List Edge) (table : Array α) (id : Nat) :
    (list.foldl (fun table edge => table.modify edge.target (add · edge)) table)[id]?
      = (table[id]?).map fun entry => (list.filter (·.target = id)).foldl add entry := by
  induction list generalizing table with
  | nil => simp
  | cons edge list ih =>
      rw [List.foldl_cons, ih, Array.getElem?_modify]
      by_cases hid : edge.target = id
      · simp [hid, Function.comp_def]
      · simp [hid]

/-- Adding edges to a table makes no entries. -/
lemma size_foldl_modify {α : Type} (add : α → Edge → α) (list : List Edge) (table : Array α) :
    (list.foldl (fun table edge => table.modify edge.target (add · edge)) table).size = table.size := by
  induction list generalizing table with
  | nil => rfl
  | cons edge list ih => rw [List.foldl_cons, ih, Array.size_modify]

/-- **The reversed graph of a closed graph** starts at its exits, and stores for a node the edges that lead
to it, the last one in front. -/
lemma Closed.reversed_eq_stored (hg : g.Closed) :
    ∃ r, g.reversed = .ok r ∧ r.offsets.size = g.size ∧ r.outgoing.size = g.size ∧ r.entries = g.exits ∧
      ∀ j, j < g.size → r.outgoing[j]? =
        some ((g.edges.filter (·.target = j)).map fun edge => (edge.kind, edge.source)).reverse := by
  let add (entry : List (EdgeKind × Nat)) (edge : Edge) := (edge.kind, edge.source) :: entry
  let outgoing := g.edges.foldl (fun table edge => table.modify edge.target (add · edge))
    (Array.replicate g.size [])
  have hfold : ∀ (list : List Edge) (entry : List (EdgeKind × Nat)), list.foldl add entry
      = (list.map fun edge => (edge.kind, edge.source)).reverse ++ entry := by
    intro list
    induction list with
    | nil => exact fun _ => rfl
    | cons edge list ih => exact fun entry => by simp [add, ih]
  refine ⟨⟨g.nodes.map Node.offset, outgoing, g.exits, g.entry⟩, ?_, by rw [Array.size_map]; rfl, ?_, rfl,
    fun j hj => ?_⟩
  · simp only [reversed, hg.wrapped_eq, bind, Except.bind, pure, Except.pure]
    rfl
  · exact (size_foldl_modify add _ _).trans Array.size_replicate
  · rw [getElem?_foldl_modify, Array.getElem?_replicate, if_pos hj, Option.map_some, hfold, List.append_nil]

/-- It leads from a node to the sources of the edges that lead to it. -/
lemma Closed.reversed_eq (hg : g.Closed) :
    ∃ r, g.reversed = .ok r ∧ r.entries = g.exits ∧
      ∀ i j, i ∈ (r.successors j).map (·.2) ↔ j ∈ g.successors i := by
  obtain ⟨r, hr, _, hsize, hentries, hstored⟩ := hg.reversed_eq_stored
  refine ⟨r, hr, hentries, fun i j => ?_⟩
  rw [Reversed.successors, List.mem_map]
  simp only [List.mem_mergeSort]
  constructor
  · rintro ⟨⟨kind, source⟩, hmem, rfl⟩
    rcases Nat.lt_or_ge j g.size with hj | hj
    · rw [hstored j hj, Option.getD_some, List.mem_reverse] at hmem
      simp only [List.mem_map, List.mem_filter, decide_eq_true_eq, Prod.mk.injEq] at hmem
      obtain ⟨edge, ⟨hedge, rfl⟩, rfl, rfl⟩ := hmem
      exact mem_successors_iff_edges.mpr ⟨edge.kind, hedge⟩
    · rw [Array.getElem?_eq_none (hsize.symm ▸ hj)] at hmem
      simp at hmem
  · intro h
    obtain ⟨kind, hedge⟩ := mem_successors_iff_edges.mp h
    refine ⟨(kind, i), ?_, rfl⟩
    rw [hstored j (hg.lt_of_mem_successors h), Option.getD_some, List.mem_reverse]
    exact List.mem_map.mpr ⟨_, List.mem_filter.mpr ⟨hedge, by simp⟩, rfl⟩

end Graph

end BytecodeFlow
