import Mathlib
import BytecodeFlow.Graph.Block
import BytecodeFlow.Graph.SpanningTree
import BytecodeFlow.Proofs.PostDominance
import BytecodeFlow.Proofs.LoopSearch
import BytecodeFlow.Proofs.PathSearch

/-!
# The passes over a graph whose slots lead to its nodes

A pass fails only where it comes to a node that does not exist.  In a closed graph none does, so every
pass has an answer; `Graph.Answers` lists the passes, and `Graph.Closed.answers` collects their proofs.

**Steps that can fail.**  A sequence of steps has a result exactly if each step has one
(`exists_of_bind_eq_ok`), and so has a step made for every element of a list (`mapM_eq_ok_iff`).

**Blocks.**  Cutting a list loses nothing (`flatten_cutBehind`), so a block holds nodes of the graph
only, and the offsets it needs can be looked up (`Closed.blocks_eq_ok`).

**The spanning tree.**  `SpanningTree.Spans` says that the tables of a tree have an entry for every
node; attaching a node keeps it (`Spans.attach`), and so does the search (`Spans.grow`).
-/

namespace BytecodeFlow

/-! ## Steps that can fail -/

section Steps

variable {ε α β : Type}

/-- A step that is followed by another one has had a result. -/
lemma exists_of_bind_eq_ok {x : Except ε α} {f : α → Except ε β} {b : β} (h : x >>= f = .ok b) :
    ∃ a, x = .ok a ∧ f a = .ok b := by
  cases x with
  | error e => cases h
  | ok a => exact ⟨a, rfl, h⟩

/-- If the step can be made for every element, it can be made for the list. -/
lemma exists_mapM_eq_ok {f : α → Except ε β} (list : List α) :
    (∀ x ∈ list, ∃ y, f x = .ok y) → ∃ ys, list.mapM f = .ok ys := by
  induction list with
  | nil => exact fun _ => ⟨[], rfl⟩
  | cons x list ih =>
      intro h
      obtain ⟨y, hy⟩ := h x List.mem_cons_self
      obtain ⟨ys, hys⟩ := ih fun z hz => h z (List.mem_cons_of_mem _ hz)
      refine ⟨y :: ys, ?_⟩
      rw [List.mapM_cons, hy, hys]
      rfl

/-- **A step made for a list** gives, in order, what it gives for the elements. -/
lemma mapM_eq_ok_iff {f : α → Except ε β} {list : List α} {ys : List β} :
    list.mapM f = .ok ys ↔ List.Forall₂ (fun x y => f x = .ok y) list ys := by
  constructor
  · intro h
    induction list generalizing ys with
    | nil =>
        obtain rfl : [] = ys := Except.ok.inj h
        exact .nil
    | cons x list ih =>
        rw [List.mapM_cons] at h
        obtain ⟨y, hy, h⟩ := exists_of_bind_eq_ok h
        obtain ⟨rest, hrest, h⟩ := exists_of_bind_eq_ok h
        obtain rfl : y :: rest = ys := Except.ok.inj h
        exact .cons hy (ih hrest)
  · intro h
    induction h with
    | nil => rfl
    | cons hy _ ih => rw [List.mapM_cons, hy, ih]; rfl

end Steps

/-! ## Blocks -/

/-- Cutting neither loses elements nor changes their order. -/
lemma flatten_cutBehind {α : Type} (ends : α → Bool) (list : List α) :
    (cutBehind ends list).flatten = list := by
  fun_induction cutBehind ends list with
  | case1 => rfl
  | case2 x rest hends ih => rw [List.flatten_cons, ih, List.singleton_append]
  | case3 x rest hends hnil ih => simpa [hnil] using ih
  | case4 x rest hends group groups hgroups ih => simpa [hgroups] using ih

namespace Graph

variable {g : Graph} {id : Nat}

/-- Only numbers out of range are refused. -/
lemma node_eq_ok (h : id < g.size) : ∃ node, g.node id = .ok node := by
  obtain ⟨node, hnode⟩ := nodes_eq_some_of_lt h
  exact ⟨node, by rw [Graph.node, hnode]⟩

lemma offset_eq_ok (h : id < g.size) : ∃ offset, g.offset id = .ok offset := by
  obtain ⟨node, hnode⟩ := node_eq_ok h
  exact ⟨node.offset, by rw [offset, hnode]; rfl⟩

/-- A block asks for the offsets of its first node and of the successors of its last one, which are nodes.
-/
lemma Closed.blockOf_eq_ok (hg : g.Closed) {nodes : List Nat} (hnodes : ∀ id ∈ nodes, id < g.size) :
    ∃ block, g.blockOf nodes = .ok block := by
  cases nodes with
  | nil => exact ⟨⟨0, [], []⟩, rfl⟩
  | cons first rest =>
      obtain ⟨start, hstart⟩ := offset_eq_ok (hnodes first List.mem_cons_self)
      obtain ⟨targets, htargets⟩ :=
        exists_mapM_eq_ok (g.successors ((first :: rest).getLast (List.cons_ne_nil _ _)))
          fun target htarget => offset_eq_ok (hg.lt_of_mem_successors htarget)
      refine ⟨⟨start, first :: rest, targets⟩, ?_⟩
      rw [blockOf, List.head?_cons, List.getLast?_eq_some_getLast (List.cons_ne_nil _ _)]
      simp only [hstart, htargets, bind, Except.bind, pure, Except.pure]

/-- **The blocks of a closed graph can be made.** -/
lemma Closed.blocks_eq_ok (hg : g.Closed) : ∃ blocks, g.blocks = .ok blocks := by
  refine exists_mapM_eq_ok _ fun nodes hnodes => hg.blockOf_eq_ok fun id hid => ?_
  have hmem : id ∈ (cutBehind g.endsBlock g.ids).flatten := List.mem_flatten.mpr ⟨nodes, hnodes, hid⟩
  rw [flatten_cutBehind] at hmem
  exact List.mem_range.mp hmem

end Graph

/-! ## The spanning tree -/

namespace SpanningTree

variable {g : Graph} {tree : SpanningTree} {parent child : Nat}

/-- Whether the tables of a tree have an entry for every node of a graph, and its nodes and their children are
nodes of the graph. -/
structure Spans (g : Graph) (tree : SpanningTree) : Prop where
  parents : tree.parents.size = g.size
  children : tree.children.size = g.size
  depths : tree.depths.size = g.size
  contained : ∀ id, tree.contains id = true → id < g.size
  listed : ∀ id, ∀ child ∈ tree.childrenOf id, child < g.size

/-- A tree whose table of depths is as long as the graph holds nodes of the graph only. -/
lemma lt_of_contains (hdepths : tree.depths.size = g.size) {id : Nat} (h : tree.contains id = true) :
    id < g.size := by
  by_contra hge
  rw [contains, depth?, Array.getElem?_eq_none (by omega)] at h
  cases h

/-- What the search tries next are nodes of the graph. -/
lemma lt_of_mem_edgesFrom (hg : g.Closed) {id : Nat} {edge : Nat × Nat}
    (h : edge ∈ edgesFrom g id) : edge.2 < g.size := by
  obtain ⟨target, htarget, rfl⟩ := List.mem_map.mp h
  exact hg.lt_of_mem_successors htarget

namespace Spans

/-- The tree that a search starts from. -/
lemma single (g : Graph) (root : Nat) : Spans g (.single g.size root) where
  parents := by simp [SpanningTree.single]
  children := by simp [SpanningTree.single]
  depths := by simp [SpanningTree.single]
  contained := fun id => lt_of_contains (by simp [SpanningTree.single])
  listed := by
    intro id child hchild
    rw [childrenOf, SpanningTree.single, Array.getElem?_replicate] at hchild
    split_ifs at hchild <;> simp at hchild

/-- An attached node is new to the table of depths, and to the children of its parent alone. -/
lemma attach (h : Spans g tree) (hchild : child < g.size) : Spans g (tree.attach parent child) where
  parents := by simpa [SpanningTree.attach] using h.parents
  children := by simpa [SpanningTree.attach] using h.children
  depths := by simpa [SpanningTree.attach] using h.depths
  contained := fun id => lt_of_contains (by simpa [SpanningTree.attach] using h.depths)
  listed := by
    intro id x hx
    rw [childrenOf, SpanningTree.attach, Array.getElem?_modify] at hx
    have hold : x ∈ tree.childrenOf id ∨ x = child := by
      rw [childrenOf]
      split_ifs at hx
      · cases hlist : tree.children[id]? with
        | none => simp [hlist] at hx
        | some list => simpa [hlist] using hx
      · exact Or.inl hx
    rcases hold with hx | rfl
    · exact h.listed id x hx
    · exact hchild

/-- **The search finds every node that it comes to**, and keeps the tables in shape. -/
lemma grow (hg : g.Closed) (tree : SpanningTree) (pending : List (Nat × Nat)) (h : Spans g tree)
    (hpending : ∀ edge ∈ pending, edge.2 < g.size) :
    ∃ grown, SpanningTree.grow g tree pending = .ok grown ∧ Spans g grown := by
  fun_induction SpanningTree.grow g tree pending with
  | case1 tree => exact ⟨tree, rfl, h⟩
  | case2 tree parent child rest hlt hin ih =>
      exact ih h fun edge hedge => hpending edge (List.mem_cons_of_mem _ hedge)
  | case3 tree parent child rest hlt hout ih =>
      refine ih (h.attach (hpending _ List.mem_cons_self)) fun edge hedge => ?_
      rcases List.mem_append.mp hedge with hedge | hedge
      · exact lt_of_mem_edgesFrom hg hedge
      · exact hpending edge (List.mem_cons_of_mem _ hedge)
  | case4 tree parent child rest hge =>
      exact absurd (h.depths ▸ hpending _ List.mem_cons_self) hge

end Spans

end SpanningTree

/-! ## All passes -/

namespace Graph

variable {g : Graph}

/-- **Every pass has an answer** for the nodes of the graph.  A table has an entry for every node, and
the loops that are found can be given to the search for paths. -/
structure Answers (g : Graph) : Prop where
  node : ∀ id < g.size, ∃ node, g.node id = .ok node
  successors : ∀ id < g.size, ∀ target ∈ g.successors id, target < g.size
  predecessorLists : ∃ lists, g.predecessorLists = .ok lists ∧ lists.size = g.size
  reachableFrom : ∀ id < g.size, ∃ marks, g.reachableFrom id = .ok marks ∧ marks.size = g.size
  isReachable : ∀ a < g.size, ∀ b < g.size, ∃ answer, g.isReachable a b = .ok answer
  reversed : ∃ r, g.reversed = .ok r ∧ r.offsets.size = g.size ∧ r.outgoing.size = g.size
  dominance : ∃ d, g.dominance = .ok d ∧ ∀ a b, d.dominates a b = true → a < g.size ∧ b < g.size
  postDominance : ∃ p, g.postDominance = .ok p ∧
    ∀ a b, p.any (·.dominates a b) = true → a < g.size ∧ b < g.size
  blocks : ∃ blocks, g.blocks = .ok blocks
  loops : ∃ loops, g.loops = .ok loops ∧
    ∀ l ∈ loops, l.header < g.size ∧ ∀ exit ∈ l.exit, exit < g.size
  paths : ∀ loops, (∀ l ∈ loops, ∀ exit ∈ l.exit, exit < g.size) →
    ∀ limits, ∃ found, g.paths loops limits = .ok found
  spanningTree : ∃ tree, g.spanningTree = .ok tree ∧ tree.Spans g

lemma Closed.predecessorLists_eq_ok (hg : g.Closed) :
    ∃ lists, g.predecessorLists = .ok lists ∧ lists.size = g.size := by
  refine ⟨_, by rw [predecessorLists, hg.checkEdges_eq]; rfl, ?_⟩
  rw [Array.size_map]
  exact (size_foldl_modify (fun (sources : Array Nat) edge => sources.push edge.source) _ _).trans
    Array.size_replicate

/-- A loop starts at a node, and its way out leads to a node, since it is a successor of one. -/
lemma Closed.loops_in_range (hg : g.Closed) (hentry : g.entry < g.size) :
    ∃ loops, g.loops = .ok loops ∧
      ∀ l ∈ loops, l.header < g.size ∧ ∀ exit ∈ l.exit, exit < g.size := by
  obtain ⟨first, others, _, hloops, _, _, hbody⟩ := hg.loops_eq hentry
  refine ⟨_, hloops, fun l hl => ?_⟩
  obtain ⟨hheader, body, hl⟩ := hbody l hl
  refine ⟨hheader, fun exit hexit => ?_⟩
  rw [hl] at hexit
  exact hg.exit_loopOf_lt hexit

/-- An entry that leaves the contract is the only path; there is no search then that could fail. -/
lemma Closed.paths_eq_ok (hg : g.Closed) (hentry : g.entry < g.size) {loops : List Loop}
    (hloops : ∀ l ∈ loops, ∀ exit ∈ l.exit, exit < g.size) (limits : Limits) :
    ∃ found, g.paths loops limits = .ok found := by
  cases hexit : g.isExit g.entry with
  | false => exact ⟨_, hg.paths_eq hloops hentry hexit limits⟩
  | true =>
      rw [paths, if_pos hexit]
      split_ifs
      · exact ⟨_, rfl⟩
      · exact ⟨_, rfl⟩

/-- **No pass over a closed graph fails.** -/
lemma Closed.answers (hg : g.Closed) (hentry : g.entry < g.size) : g.Answers where
  node := fun id hid => node_eq_ok hid
  successors := closed_iff_successors.mp hg
  predecessorLists := hg.predecessorLists_eq_ok
  reachableFrom := by
    intro id hid
    obtain ⟨marks, hmarks, hsize, _⟩ := reach_eq (closed_iff_successors.mp hg) hid
    exact ⟨marks, hmarks, hsize⟩
  isReachable := by
    intro a ha b hb
    obtain ⟨marks, hmarks, hsize, _⟩ := reach_eq (closed_iff_successors.mp hg) ha
    have hlt : b < marks.size := hsize.symm ▸ hb
    refine ⟨marks[b], ?_⟩
    rw [Graph.isReachable, Graph.reachableFrom, hmarks]
    simp only [bind, Except.bind, Array.getElem?_eq_getElem hlt]
    rfl
  reversed := by
    obtain ⟨r, hr, hoffsets, houtgoing, _⟩ := hg.reversed_eq_stored
    exact ⟨r, hr, hoffsets, houtgoing⟩
  dominance := by
    obtain ⟨d, hd, hanswers⟩ := hg.dominance_eq hentry
    exact ⟨d, hd, fun a b h => hg.dominates_lt hentry ((hanswers.dominates_iff a b).mp h)⟩
  postDominance := by
    obtain ⟨p, hp, hdom⟩ := hg.postDominance_any
    exact ⟨p, hp, fun a b h => ((hdom a b).mp h).lt_size hg⟩
  blocks := hg.blocks_eq_ok
  loops := hg.loops_in_range hentry
  paths := fun loops hloops limits => hg.paths_eq_ok hentry hloops limits
  spanningTree := by
    exact SpanningTree.Spans.grow hg _ _ (.single g g.entry) fun edge hedge =>
      SpanningTree.lt_of_mem_edgesFrom hg hedge

end Graph

end BytecodeFlow
