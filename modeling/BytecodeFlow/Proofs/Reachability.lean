import Mathlib
import BytecodeFlow.Proofs.DepthFirst

/-!
# The searches agree on what is reachable

Three passes go through the graph from its entry, each in its own way: the search for reachable nodes, the
spanning tree and dominance.  All of them come to the nodes that a walk leads to.  Post-dominance comes to
the nodes from which a walk leads to an exit.

**The spanning tree.**  The nodes that the plain depth-first search visits are closed under edges, and a
link is an edge (`Closed.mem_preorder_iff`).

**Dominance.**  The root reaches the nodes that dominate themselves (`Dominance.Answers.contains_iff`), and
every walk to a node passes the node.
-/

namespace BytecodeFlow

namespace Graph

variable {g : Graph} {u v : Nat}

/-! ## The spanning tree -/

/-- The way down the tree is a walk. -/
lemma reaches_of_below (h : Below g.discoveries u v) : Reaches g.successors u v := by
  induction h with
  | refl => exact .refl _ _
  | tail _ hlink ih => exact ih.tail (mem_discoveries hlink).2.2

/-- What is below a node of the tree is in the tree. -/
lemma mem_preorder_of_below (hu : u ∈ g.preorder) (h : Below g.discoveries u v) : v ∈ g.preorder := by
  cases h with
  | refl => exact hu
  | tail _ hlink => exact (mem_discoveries hlink).2.1

/-- **The plain search visits the nodes that the entry reaches.** -/
lemma Closed.mem_preorder_iff (hg : g.Closed) : v ∈ g.preorder ↔ Reaches g.successors g.entry v := by
  constructor
  · intro h
    rcases List.mem_cons.mp h with rfl | h
    · exact .refl _ _
    · exact reaches_of_below (g.discovery_discoveries.descends v h)
  · intro h
    refine h.preserves (P := (· ∈ g.preorder)) List.mem_cons_self ?_
    intro x hx y hy
    rcases back_or_below hx hy (hg.lt_of_mem_successors hy) with hbefore | hbelow
    · exact hbefore.subset List.mem_cons_self
    · exact mem_preorder_of_below hx hbelow

end Graph

/-! ## Dominance -/

/-- A node dominates itself if it can be reached. -/
lemma dominates_self_iff {next : Nat → List Nat} {root id : Nat} :
    Dominates next root id id ↔ Reaches next root id :=
  ⟨fun h => h.reached, .refl⟩

namespace Graph

variable {g : Graph}

/-- A node post-dominates itself if it leads to an exit. -/
lemma postDominates_self_iff {id : Nat} :
    g.PostDominates id id ↔ ∃ exit, g.isExit exit = true ∧ Reaches g.successors id exit :=
  ⟨fun h => h.leaves, fun h => ⟨h, fun _ _ _ hpath => hpath.first_mem⟩⟩

/-! ## All searches -/

/-- **The searches come to the nodes that walks lead to**: the search for reachable nodes from any node,
the spanning tree and the dominators from the entry, and the post-dominators toward the exits. -/
theorem searches_agree_on_walks (g : Graph) (hg : g.Closed) (hentry : g.entry < g.size) :
    (∀ source < g.size, ∃ marks, g.reachableFrom source = .ok marks ∧ marks.size = g.size ∧
      (∀ id : Nat, marks[id]? = some true ↔ Reaches g.successors source id) ∧
      ∀ id < g.size, ∃ answer, g.isReachable source id = .ok answer ∧
        (answer = true ↔ Reaches g.successors source id)) ∧
    (∃ tree, g.spanningTree = .ok tree ∧
      ∀ id, tree.contains id = true ↔ Reaches g.successors g.entry id) ∧
    (∃ d, g.dominance = .ok d ∧ ∀ id, d.contains id = true ↔ Reaches g.successors g.entry id) ∧
    ∃ p, g.postDominance = .ok p ∧ (p.isSome = true ↔ g.exits ≠ []) ∧
      ∀ d ∈ p, ∀ id, d.contains id = true ↔
        ∃ exit, g.isExit exit = true ∧ Reaches g.successors id exit := by
  refine ⟨fun source hsource => ?_, ?_, ?_, ?_⟩
  · obtain ⟨marks, hmarks, hsize, hreach⟩ := reach_eq (closed_iff_successors.mp hg) hsource
    refine ⟨marks, hmarks, hsize, hreach, fun id hid => ?_⟩
    have hmark : marks[id]? = some marks[id] := Array.getElem?_eq_getElem (hsize ▸ hid)
    refine ⟨marks[id], ?_, ?_⟩
    · rw [isReachable, reachableFrom, hmarks]
      simp only [bind, Except.bind, hmark]
      rfl
    · rw [← hreach, hmark, Option.some_inj]
  · obtain ⟨tree, htree, hrecords⟩ := hg.spanningTree_eq hentry
    exact ⟨tree, htree, fun id => (hrecords.contains id).trans hg.mem_preorder_iff⟩
  · obtain ⟨d, hd, hanswers⟩ := hg.dominance_eq hentry
    refine ⟨d, hd, fun id => ?_⟩
    rw [hanswers.contains_iff, dominates_self_iff]
  · by_cases hexits : g.exits = []
    · exact ⟨none, postDominance_eq_none hexits, by simp [hexits], by simp⟩
    · obtain ⟨d, hd, hanswers⟩ := hg.postDominance_eq hexits
      refine ⟨some d, hd, by simp [hexits], ?_⟩
      simp only [Option.mem_some_iff, forall_eq']
      intro id
      rw [hanswers.contains_iff, postDominates_self_iff]

/-- In the sample graph nothing leads to the exit at node 2, so only the post-dominators hold it. -/
theorem searches_agree_on_walks_sample :
    sample.Closed ∧ sample.entry < sample.size ∧
      sample.reachableFrom 0 = .ok #[true, true, false, true, true, true, true] ∧
      (∃ tree, sample.spanningTree = .ok tree ∧ tree.contains 2 = false ∧ tree.contains 6 = true) ∧
      (∃ d, sample.dominance = .ok d ∧ d.contains 2 = false ∧ d.contains 6 = true) ∧
      ∃ d, sample.postDominance = .ok (some d) ∧ d.contains 2 = true := by
  have hrun : sample.reachableFrom 0 = .ok #[true, true, false, true, true, true, true] := by cbv
  obtain ⟨hfrom, ⟨tree, htree, hin⟩, ⟨d, hd, hdom⟩, p, hp, hsome, hpost⟩ :=
    searches_agree_on_walks sample (by decide) (by decide)
  obtain ⟨marks, hmarks, _, hreach, _⟩ := hfrom 0 (by decide)
  obtain rfl := Except.ok.inj (hrun.symm.trans hmarks)
  have hout : ¬Reaches sample.successors sample.entry 2 := fun h => by simpa using (hreach 2).mpr h
  have hleft : Reaches sample.successors sample.entry 6 := (hreach 6).mp (by simp)
  refine ⟨by decide, by decide, hrun, ⟨tree, htree, ?_, (hin 6).mpr hleft⟩,
    ⟨d, hd, ?_, (hdom 6).mpr hleft⟩, ?_⟩
  · rwa [Bool.eq_false_iff, Ne, hin]
  · rwa [Bool.eq_false_iff, Ne, hdom]
  · obtain ⟨q, rfl⟩ := Option.isSome_iff_exists.mp (hsome.mpr (by decide))
    exact ⟨q, hp, (hpost q rfl 2).mpr ⟨2, by decide, .refl _ 2⟩⟩

end Graph

end BytecodeFlow
