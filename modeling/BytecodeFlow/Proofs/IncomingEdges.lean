import Mathlib
import BytecodeFlow.Proofs.LoopCycles

/-!
# The views of the edges that lead to a node

The sources of the edges that lead to a node can be asked for one node or for all, and the reversed
graph holds the same edges with their slots.  This file says that all of them show every edge once.

**All edges.**  `Reversed.rank` orders edges by their source and then by their slot.  The list of all
edges ascends in it (`pairwise_edges`), so no edge is there twice, and it is as long as all lists of
successors together (`length_edges`).

**Edges to a node.**  `edgesTo` picks the edges that lead to a node, so they ascend too, and those from
one source are its slots that lead there (`slots_edgesTo`).  Every edge of a closed graph is among those
of one node (`Closed.length_flatMap_edgesTo`).

**Views.**  The loop over all edges puts a source behind those of its target, so the lists hold
`predecessors` (`Closed.predecessorLists_eq_map`).  The edges of a node ascend strictly, so sorting gives
`edgesTo` however they were stored (`mergeSort_eq_of_perm`, `Closed.reversed_eq_edgesTo`).
-/

namespace BytecodeFlow

/-! ## All edges -/

/-- The slots are listed in the order of their places. -/
lemma EdgeKind.pairwise_all : all.Pairwise (·.place < ·.place) := by
  decide

lemma EdgeKind.place_injective : Function.Injective place := by
  intro a b h
  cases a <;> cases b <;> first | rfl | simp [place, all] at h

/-- An edge as the reversed graph holds it: its slot, and where it came from. -/
def Edge.back (edge : Edge) : EdgeKind × Nat :=
  (edge.kind, edge.source)

/-- The place of a reversed edge: its source comes first, then its slot. -/
def Reversed.rank (edge : EdgeKind × Nat) : Nat ×ₗ Nat :=
  toLex (edge.2, edge.1.place)

/-- A source and a slot are told by their rank, so sorting by it leaves nothing open. -/
lemma Reversed.rank_injective : Function.Injective Reversed.rank := by
  rintro ⟨a, i⟩ ⟨b, j⟩ h
  obtain ⟨hsource, hplace⟩ := Prod.mk.inj (toLex.injective h)
  exact Prod.ext (EdgeKind.place_injective hplace) hsource

namespace Graph

variable {g : Graph} {i j : Nat} {k : EdgeKind}

/-- The edges that leave a node, in the order of its slots. -/
def edgesFrom (g : Graph) (i : Nat) : List Edge :=
  EdgeKind.all.filterMap fun kind =>
    ((g.nodes[i]?).bind (·.edge kind)).map fun target => ⟨i, kind, target⟩

/-- All edges are those of the nodes, one node after the other. -/
lemma edges_eq_flatMap (g : Graph) : g.edges = g.ids.flatMap g.edgesFrom := by
  rw [edges, List.flatMap_def, List.flatMap_def]
  congr 1
  refine List.ext_getElem (by simp [ids, size]) fun i hi _ => ?_
  have hlt : i < g.nodes.toList.length := by simpa using hi
  have hnode : g.nodes[i]? = some g.nodes.toList[i] := by simp
  simp only [List.getElem_map, List.getElem_zipIdx, ids, List.getElem_range, edgesFrom, Node.edges,
    hnode, Option.bind_some, List.map_filterMap, Option.map_map, Nat.zero_add]
  rfl

lemma source_of_mem_edgesFrom {edge : Edge} (h : edge ∈ g.edgesFrom i) : edge.source = i := by
  simp only [edgesFrom, List.mem_filterMap, Option.map_eq_some_iff] at h
  obtain ⟨kind, _, target, _, rfl⟩ := h
  rfl

/-- **The edges ascend by source and slot.** -/
lemma pairwise_edges (g : Graph) :
    g.edges.Pairwise fun a b => Reversed.rank a.back < Reversed.rank b.back := by
  rw [edges_eq_flatMap, List.pairwise_flatMap]
  constructor
  · intro i _
    refine EdgeKind.pairwise_all.filterMap _ fun a b hab edge hedge edge' hedge' => ?_
    obtain ⟨_, _, rfl⟩ := Option.map_eq_some_iff.mp hedge
    obtain ⟨_, _, rfl⟩ := Option.map_eq_some_iff.mp hedge'
    exact Prod.Lex.toLex_lt_toLex.mpr (.inr ⟨rfl, hab⟩)
  · refine List.pairwise_lt_range.imp fun hlt edge hedge edge' hedge' => ?_
    rw [← source_of_mem_edgesFrom hedge, ← source_of_mem_edgesFrom hedge'] at hlt
    exact Prod.Lex.toLex_lt_toLex.mpr (.inl hlt)

lemma length_edgesFrom (g : Graph) (i : Nat) : (g.edgesFrom i).length = (g.successors i).length := by
  rw [edgesFrom, successors]
  cases g.nodes[i]? with
  | none => simp
  | some node =>
      have htargets : node.targets = (EdgeKind.all.filterMap fun kind =>
          (node.edge kind).map fun target => (⟨i, kind, target⟩ : Edge)).map Edge.target := by
        simp [Node.targets, List.map_filterMap, Function.comp_def]
      simp [htargets]

/-- There are as many edges as successors. -/
lemma length_edges (g : Graph) :
    g.edges.length = (g.ids.map fun i => (g.successors i).length).sum := by
  rw [edges_eq_flatMap, List.length_flatMap]
  exact congrArg List.sum (List.map_congr_left fun i _ => g.length_edgesFrom i)

lemma mem_slotsTo : k ∈ g.slotsTo i j ↔ ⟨i, k, j⟩ ∈ g.edges := by
  rw [mem_edges, ← Option.bind_eq_some_iff]
  simp only [slotsTo, List.mem_filter, decide_eq_true_eq, and_iff_right_iff_imp]
  cases k <;> simp [EdgeKind.all]

/-- Each slot is one edge. -/
lemma count_edges (g : Graph) (edge : Edge) :
    g.edges.count edge = if edge.kind ∈ g.slotsTo edge.source edge.target then 1 else 0 := by
  have hnodup : g.edges.Nodup :=
    g.pairwise_edges.imp fun hlt heq => hlt.ne (congrArg (Reversed.rank ∘ Edge.back) heq)
  rw [hnodup.count, if_congr mem_slotsTo.symm rfl rfl]

/-! ## Edges to a node -/

/-- The slots and sources of the edges that lead to a node. -/
def edgesTo (g : Graph) (j : Nat) : List (EdgeKind × Nat) :=
  (g.edges.filter (·.target = j)).map Edge.back

/-- Without the slots, the incoming edges are the predecessors. -/
lemma map_edgesTo (g : Graph) (j : Nat) : (g.edgesTo j).map (·.2) = g.predecessors j := by
  rw [edgesTo, List.map_map]
  rfl

lemma mem_edgesTo : (k, i) ∈ g.edgesTo j ↔ k ∈ g.slotsTo i j := by
  rw [mem_slotsTo]
  simp only [edgesTo, Edge.back, List.mem_map, List.mem_filter, decide_eq_true_eq, Prod.mk.injEq]
  constructor
  · rintro ⟨edge, ⟨hedge, rfl⟩, rfl, rfl⟩
    exact hedge
  · exact fun hedge => ⟨_, ⟨hedge, rfl⟩, rfl, rfl⟩

/-- **Incoming edges stand in the order of their ranks.** -/
lemma pairwise_edgesTo (g : Graph) (j : Nat) :
    (g.edgesTo j).Pairwise fun a b => Reversed.rank a < Reversed.rank b :=
  List.pairwise_map.mpr (g.pairwise_edges.filter _)

lemma count_edgesTo (g : Graph) (i j : Nat) (k : EdgeKind) :
    (g.edgesTo j).count (k, i) = if k ∈ g.slotsTo i j then 1 else 0 := by
  have hnodup : (g.edgesTo j).Nodup :=
    (g.pairwise_edgesTo j).imp fun hlt heq => hlt.ne (congrArg Reversed.rank heq)
  rw [hnodup.count, if_congr mem_edgesTo rfl rfl]

/-- **The edges from one source are its slots, in order.** -/
lemma slots_edgesTo (g : Graph) (i j : Nat) :
    ((g.edgesTo j).filter (·.2 = i)).map (·.1) = g.slotsTo i j := by
  have hslots : (g.slotsTo i j).Pairwise (·.place < ·.place) := EdgeKind.pairwise_all.filter _
  have hedges : (((g.edgesTo j).filter (·.2 = i)).map (·.1)).Pairwise (·.place < ·.place) := by
    rw [List.pairwise_map]
    refine ((g.pairwise_edgesTo j).filter _).imp_of_mem fun {a b} ha hb hlt => ?_
    have ha : a.2 = i := by simpa using (List.mem_filter.mp ha).2
    have hb : b.2 = i := by simpa using (List.mem_filter.mp hb).2
    simpa [Reversed.rank, ha, hb, Prod.Lex.toLex_lt_toLex] using hlt
  have hantisymm : Std.Antisymm fun a b : EdgeKind => a.place < b.place :=
    ⟨fun a b hab hba => absurd hab hba.asymm⟩
  have hirrefl : Std.Irrefl fun a b : EdgeKind => a.place < b.place := ⟨fun a => lt_irrefl _⟩
  refine hedges.eq_of_mem_iff hslots fun k => ?_
  rw [← mem_edgesTo]
  simp

/-- A node is a predecessor as often as it has slots that lead to the node. -/
lemma count_predecessors (g : Graph) (i j : Nat) :
    (g.predecessors j).count i = (g.slotsTo i j).length := by
  rw [← slots_edgesTo, List.length_map, ← map_edgesTo, List.count, List.countP_map,
    List.countP_eq_length_filter]
  rfl

lemma pairwise_predecessors (g : Graph) (j : Nat) : (g.predecessors j).Pairwise (· ≤ ·) := by
  rw [← map_edgesTo, List.pairwise_map]
  refine (g.pairwise_edgesTo j).imp fun h => ?_
  rcases Prod.Lex.toLex_lt_toLex.mp h with hlt | ⟨heq, _⟩
  · exact hlt.le
  · exact heq.le

/-- Every edge is counted at its target, and only there. -/
lemma sum_length_filter_target {n : Nat} {list : List Edge} (h : ∀ edge ∈ list, edge.target < n) :
    ((List.range n).map fun j => (list.filter (·.target = j)).length).sum = list.length := by
  induction list with
  | nil => simp
  | cons edge list ih =>
      obtain ⟨hlt, h⟩ := List.forall_mem_cons.mp h
      have hstep : ∀ j ∈ List.range n, ((edge :: list).filter (·.target = j)).length
          = (if j = edge.target then 1 else 0) + (list.filter (·.target = j)).length := by
        intro j _
        by_cases hj : j = edge.target
        · simp [hj, Nat.add_comm]
        · simp [hj, Ne.symm hj]
      have hone : ((List.range n).map fun j => if j = edge.target then 1 else 0).sum = 1 := by
        rw [List.sum_map_eq_nsmul_single edge.target _ fun j hj _ => if_neg hj, List.count_range]
        simp [hlt]
      rw [List.map_congr_left hstep, List.sum_map_add, ih h, hone, List.length_cons, Nat.add_comm]

/-- **Every edge of a closed graph leads to one node.** -/
lemma Closed.length_flatMap_edgesTo (hg : g.Closed) :
    (g.ids.flatMap g.edgesTo).length = g.edges.length := by
  simp only [List.length_flatMap, edgesTo, List.length_map]
  exact sum_length_filter_target fun edge hedge => hg.edge_target_lt hedge

/-! ## Views -/

/-- **The lists of sources** are those that are asked for one by one. -/
lemma Closed.predecessorLists_eq_map (hg : g.Closed) :
    g.predecessorLists = .ok (g.ids.map g.predecessors).toArray := by
  have hpush : ∀ (list : List Edge) (sources : Array Nat),
      list.foldl (fun sources edge => sources.push edge.source) sources
        = sources ++ (list.map (·.source)).toArray := by
    intro list
    induction list with
    | nil => simp
    | cons edge list ih => exact fun sources => by simp [ih]
  rw [predecessorLists, hg.checkEdges_eq]
  refine congrArg Except.ok (Array.ext_getElem? fun j => ?_)
  have hget := getElem?_foldl_modify (fun (sources : Array Nat) edge => sources.push edge.source) g.edges
    (Array.replicate g.size #[]) j
  beta_reduce at hget
  rw [Array.getElem?_map, hget, Array.getElem?_replicate, List.getElem?_toArray, List.getElem?_map, ids]
  by_cases hj : j < g.size
  · simp [hj, hpush, predecessors]
  · simp [hj]

/-- Edges are put in order by their source and then by their slot. -/
lemma inOrder_eq_rank_le :
    Reversed.inOrder = fun a b => decide (Reversed.rank a ≤ Reversed.rank b) := by
  funext a b
  rw [Bool.eq_iff_iff, decide_eq_true_eq, Reversed.rank, Reversed.rank, Prod.Lex.toLex_le_toLex,
    Reversed.inOrder]
  simp

/-- A list in ascending order is what sorting makes of any other order of it. -/
lemma mergeSort_eq_of_perm {α β : Type} [LinearOrder β] {key : α → β} {stored list : List α}
    (hkey : Function.Injective key) (hperm : stored.Perm list)
    (hlist : list.Pairwise (key · < key ·)) : stored.mergeSort (key · ≤ key ·) = list := by
  have hsorted : (stored.mergeSort (key · ≤ key ·)).Pairwise (key · ≤ key ·) := by
    have htrans : ∀ a b c, decide (key a ≤ key b) = true → decide (key b ≤ key c) = true →
        decide (key a ≤ key c) = true := by
      simp only [decide_eq_true_eq]
      exact fun _ _ _ => le_trans
    have htotal : ∀ a b, (decide (key a ≤ key b) || decide (key b ≤ key a)) = true := by
      simp only [Bool.or_eq_true, decide_eq_true_eq]
      exact fun _ _ => le_total _ _
    simpa only [decide_eq_true_eq] using List.pairwise_mergeSort htrans htotal stored
  refine List.Perm.eq_of_pairwise (fun a b _ _ hab hba => ?_) hsorted (hlist.imp le_of_lt)
    ((List.mergeSort_perm _ _).trans hperm)
  exact hkey (le_antisymm hab hba)

/-- **The reversed graph of a closed graph** shows the edges that lead to each node in order, although it
stores them the other way round. -/
lemma Closed.reversed_eq_edgesTo (hg : g.Closed) :
    ∃ r, g.reversed = .ok r ∧ (∀ j < g.size, r.successors j = g.edgesTo j) ∧
      r.edgeCount = g.edges.length := by
  obtain ⟨r, hr, _, hsize, _, hstored⟩ := hg.reversed_eq_stored
  refine ⟨r, hr, fun j hj => ?_, ?_⟩
  · rw [Reversed.successors, hstored j hj, Option.getD_some, inOrder_eq_rank_le]
    exact mergeSort_eq_of_perm Reversed.rank_injective (List.reverse_perm _) (g.pairwise_edgesTo j)
  · have houtgoing : r.outgoing.toList = g.ids.map fun j => (g.edgesTo j).reverse := by
      refine List.ext_getElem? fun j => ?_
      rw [Array.getElem?_toList, List.getElem?_map, ids]
      rcases Nat.lt_or_ge j g.size with hj | hj
      · rw [hstored j hj, List.getElem?_range hj]
        rfl
      · rw [Array.getElem?_eq_none (hsize.symm ▸ hj), List.getElem?_eq_none (by simpa using hj)]
        rfl
    rw [Reversed.edgeCount, houtgoing, ← hg.length_flatMap_edgesTo, List.length_flatMap,
      List.length_flatten, List.map_map]
    simp only [Function.comp_def, List.length_reverse]

/-- **The views of the edges that lead to a node show the same edges**, every one of them once. -/
structure IncomingAgree (g : Graph) (lists : Array (List Nat)) (r : Reversed) (j : Nat) : Prop where
  listed : lists[j]? = some (g.predecessors j)
  reversed : (r.successors j).map (·.2) = g.predecessors j
  /-- Sources stand in order, and once for every slot. -/
  ordered : (g.predecessors j).Pairwise (· ≤ ·)
  repeated : ∀ i, (g.predecessors j).count i = (g.slotsTo i j).length
  once : ∀ kind i, (r.successors j).count (kind, i) = if kind ∈ g.slotsTo i j then 1 else 0
  slots : ∀ i, ((r.successors j).filter (·.2 = i)).map (·.1) = g.slotsTo i j
  /-- The order does not depend on the one in which the edges are stored. -/
  sorted : ∀ stored : List Edge, stored.Perm g.edges →
    ((stored.filter (·.target = j)).map Edge.back).mergeSort (Reversed.rank · ≤ Reversed.rank ·)
      = r.successors j

/-- **All views of the incoming edges of a closed graph agree**, and none loses an edge: the reversed
graph and the list of all edges have as many as there are successors. -/
theorem incoming_views_agree (g : Graph) (hg : g.Closed) :
    ∃ lists r all, g.predecessorLists = .ok lists ∧ g.reversed = .ok r ∧ g.wrapped = .ok all ∧
      lists.size = g.size ∧ (∀ j < g.size, g.IncomingAgree lists r j) ∧
      r.edgeCount = (g.ids.map fun i => (g.successors i).length).sum ∧
      all.edges.length = (g.ids.map fun i => (g.successors i).length).sum ∧
      ∀ edge, all.edges.count edge
        = if edge.kind ∈ g.slotsTo edge.source edge.target then 1 else 0 := by
  obtain ⟨r, hr, hsuccessors, hcount⟩ := hg.reversed_eq_edgesTo
  refine ⟨_, r, g, hg.predecessorLists_eq_map, hr, hg.wrapped_eq, by simp [ids], fun j hj => ?_,
    hcount.trans g.length_edges, g.length_edges, g.count_edges⟩
  have hj' := hsuccessors j hj
  exact {
    listed := by simp [ids, hj]
    reversed := by rw [hj', map_edgesTo]
    ordered := g.pairwise_predecessors j
    repeated := fun i => g.count_predecessors i j
    once := fun kind i => by rw [hj', count_edgesTo]
    slots := fun i => by rw [hj', slots_edgesTo]
    sorted := fun stored hstored => by
      rw [hj']
      exact mergeSort_eq_of_perm Reversed.rank_injective ((hstored.filter _).map _) (g.pairwise_edgesTo j) }

/-- A call leads twice to the node behind it, and a branch comes before the code that runs on. -/
theorem incoming_views_sample :
    ∃ lists r all, sample.predecessorLists = .ok lists ∧ sample.reversed = .ok r ∧
      sample.wrapped = .ok all ∧ lists.size = 7 ∧ (∀ j < 7, sample.IncomingAgree lists r j) ∧
      sample.slotsTo 3 4 = [.next, .callContinuation] ∧ lists[4]? = some [3, 3] ∧
      r.successors 5 = [(.branch, 1), (.next, 4)] ∧ r.edgeCount = 9 ∧ all.edges.length = 9 := by
  obtain ⟨lists, r, all, hlists, hr, hall, hsize, hagree, hcount, hlength, _⟩ :=
    incoming_views_agree sample (by decide)
  have hrun : sample.reversed.map (·.successors 5) = .ok [(.branch, 1), (.next, 4)] := by cbv
  rw [hr] at hrun
  exact ⟨lists, r, all, hlists, hr, hall, hsize, hagree, by decide, (hagree 4 (by decide)).listed,
    Except.ok.inj hrun, hcount, hlength⟩

end Graph

end BytecodeFlow
