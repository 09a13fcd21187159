import Mathlib
import BytecodeFlow.Proofs.PostDominance

/-!
# A graph inside another one, under other numbers

`Graph.Embeds old small big` says that every node of `small` is, under the number `old` gives it, a
node of `big` with the same instruction and the same edges.  No edge leaves the part of `big` that
the nodes of `small` make up, so whatever starts there stays there.

**Edges.**  Successors and exits carry over (`successors_eq`, `isExit_eq`).

**Walks.**  The walks of `big` that start in the part are the renumbered walks of `small`
(`walk_iff`), and with them reachability, dominance and post-dominance carry over (`reaches_iff`,
`dominates_iff`, `postDominates_iff`).
-/

namespace BytecodeFlow

lemma Node.targets_mapTargets (f : Nat → Nat) (node : Node) :
    (node.mapTargets f).targets = node.targets.map f := by
  rw [targets, targets, List.map_filterMap]
  exact congrArg (fun slot => EdgeKind.all.filterMap slot) (funext (node.edge_mapTargets f))

namespace Graph

/-- **A graph inside another one**: `old` is the number that a node of `small` has in `big`. -/
structure Embeds (old : Nat → Nat) (small big : Graph) : Prop where
  closed : small.Closed
  entry_lt : small.entry < small.size
  entry_eq : old small.entry = big.entry
  injective : ∀ i < small.size, ∀ j < small.size, old i = old j → i = j
  nodes : ∀ (i : Nat) (node : Node), small.nodes[i]? = some node →
    big.nodes[old i]? = some (node.mapTargets old)

namespace Embeds

variable {old : Nat → Nat} {small big : Graph} {a b i j : Nat} {path : List Nat}
  (h : Embeds old small big)

include h

lemma lt_size (hi : i < small.size) : old i < big.size := by
  obtain ⟨node, hnode⟩ := nodes_eq_some_of_lt hi
  exact lt_size_of_eq_some (h.nodes i node hnode)

lemma mem_map_iff (hi : i < small.size) (hpath : ∀ x ∈ path, x < small.size) :
    old i ∈ path.map old ↔ i ∈ path := by
  constructor
  · intro hmem
    obtain ⟨x, hx, heq⟩ := List.mem_map.mp hmem
    exact h.injective x (hpath x hx) i hi heq ▸ hx
  · exact List.mem_map_of_mem

/-! ## Edges -/

/-- **The successors carry over.** -/
lemma successors_eq (hi : i < small.size) :
    big.successors (old i) = (small.successors i).map old := by
  obtain ⟨node, hnode⟩ := nodes_eq_some_of_lt hi
  rw [Graph.successors_eq (h.nodes i node hnode), Graph.successors_eq hnode, Node.targets_mapTargets]

/-- A node leaves the contract under either number. -/
lemma isExit_eq (hi : i < small.size) : big.isExit (old i) = small.isExit i := by
  obtain ⟨node, hnode⟩ := nodes_eq_some_of_lt hi
  simp only [isExit, instruction?, hnode, h.nodes i node hnode, Option.map_some]
  rfl

/-! ## Walks -/

/-- A walk in the smaller graph is one in the larger graph. -/
lemma walk_map (hwalk : Walk small.successors a b path) :
    Walk big.successors (old a) (old b) (path.map old) := by
  induction hwalk with
  | single a => exact .single (old a)
  | cons hab _ ih =>
      refine .cons ?_ ih
      rw [h.successors_eq (lt_size_of_mem_successors hab)]
      exact List.mem_map_of_mem hab

/-- A walk that starts in the part stays there. -/
lemma exists_walk_of_walk {y : Nat} {renamed : List Nat} (ha : a < small.size)
    (hwalk : Walk big.successors (old a) y renamed) :
    ∃ b path, b < small.size ∧ y = old b ∧ renamed = path.map old ∧
      Walk small.successors a b path := by
  generalize hx : old a = x at hwalk
  induction hwalk generalizing a with
  | single x => exact ⟨a, [a], ha, hx.symm, by rw [List.map_singleton, hx], .single a⟩
  | cons hstep _ ih =>
      subst hx
      rw [h.successors_eq ha, List.mem_map] at hstep
      obtain ⟨c, hc, rfl⟩ := hstep
      obtain ⟨b, path, hb, rfl, rfl, hwalk⟩ := ih (h.closed.lt_of_mem_successors hc) rfl
      exact ⟨b, a :: path, hb, rfl, rfl, .cons hc hwalk⟩

/-- **The walks carry over.** -/
lemma walk_iff {renamed : List Nat} (ha : a < small.size) (hb : b < small.size) :
    Walk big.successors (old a) (old b) renamed ↔
      ∃ path, renamed = path.map old ∧ Walk small.successors a b path := by
  constructor
  · intro hwalk
    obtain ⟨c, path, hc, hbc, rfl, hwalk⟩ := h.exists_walk_of_walk ha hwalk
    obtain rfl := h.injective b hb c hc hbc
    exact ⟨path, rfl, hwalk⟩
  · rintro ⟨path, rfl, hwalk⟩
    exact h.walk_map hwalk

/-- A walk that starts in the smaller graph stays there. -/
lemma walk_lt (ha : a < small.size) (hwalk : Walk small.successors a b path) :
    ∀ x ∈ path, x < small.size :=
  hwalk.forall_mem ha fun _ _ _ => h.closed.lt_of_mem_successors

/-- The same nodes are reached under either number. -/
lemma reaches_iff (ha : a < small.size) (hb : b < small.size) :
    Reaches big.successors (old a) (old b) ↔ Reaches small.successors a b := by
  constructor
  · rintro ⟨renamed, hwalk⟩
    obtain ⟨path, _, hwalk⟩ := (h.walk_iff ha hb).mp hwalk
    exact ⟨path, hwalk⟩
  · rintro ⟨path, hwalk⟩
    exact ⟨path.map old, h.walk_map hwalk⟩

/-! ## Dominance -/

/-- **Dominance carries over.** -/
lemma dominates_iff (ha : a < small.size) (hb : b < small.size) :
    Dominates big.successors big.entry (old a) (old b) ↔
      Dominates small.successors small.entry a b := by
  rw [← h.entry_eq]
  constructor
  · intro hdom
    refine ⟨(h.reaches_iff h.entry_lt hb).mp hdom.reached, fun path hwalk => ?_⟩
    exact (h.mem_map_iff ha (h.walk_lt h.entry_lt hwalk)).mp (hdom.passed _ (h.walk_map hwalk))
  · intro hdom
    refine ⟨(h.reaches_iff h.entry_lt hb).mpr hdom.reached, fun renamed hwalk => ?_⟩
    obtain ⟨path, rfl, hsmall⟩ := (h.walk_iff h.entry_lt hb).mp hwalk
    exact List.mem_map_of_mem (hdom.passed path hsmall)

/-- **Post-dominance carries over.** -/
lemma postDominates_iff (ha : a < small.size) (hb : b < small.size) :
    big.PostDominates (old a) (old b) ↔ small.PostDominates a b := by
  constructor
  · rintro ⟨⟨y, hexit, renamed, hwalk⟩, hpass⟩
    obtain ⟨exit, path, hlt, rfl, rfl, hsmall⟩ := h.exists_walk_of_walk hb hwalk
    rw [h.isExit_eq hlt] at hexit
    refine ⟨⟨exit, hexit, path, hsmall⟩, fun exit path hexit hwalk => ?_⟩
    have hlt : exit < small.size := lt_size_of_isExit hexit
    have hmem := hpass (old exit) (path.map old) (by rw [h.isExit_eq hlt, hexit]) (h.walk_map hwalk)
    exact (h.mem_map_iff ha (h.walk_lt hb hwalk)).mp hmem
  · rintro ⟨⟨exit, hexit, path, hwalk⟩, hpass⟩
    have hlt : exit < small.size := lt_size_of_isExit hexit
    refine ⟨⟨old exit, by rw [h.isExit_eq hlt, hexit], path.map old, h.walk_map hwalk⟩, ?_⟩
    intro y renamed hexit hwalk
    obtain ⟨exit, path, hlt, rfl, rfl, hsmall⟩ := h.exists_walk_of_walk hb hwalk
    rw [h.isExit_eq hlt] at hexit
    exact List.mem_map_of_mem (hpass exit path hexit hsmall)

end Embeds

end Graph

end BytecodeFlow
