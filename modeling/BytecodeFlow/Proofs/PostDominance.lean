import Mathlib
import BytecodeFlow.Proofs.Dominance

/-!
# Dominance against the edges

A node post-dominates another one if every walk from the other one that ends at an exit passes it.
`Graph.postDominance` finds this as dominance in the reversed graph, from a sink behind all exits.

A walk from the sink to a node of the graph is, turned round and without the sink, a walk from that
node to an exit: `walk_towardEntry_iff`.  A walk may pass exits before its end, because the reversed
graph may be entered at any of them.  So dominance from the sink is post-dominance
(`dominates_towardEntry_iff`), and the sink itself, whose number is that of no node, is not reported.
-/

namespace BytecodeFlow.Graph

variable {g : Graph} {r : Reversed} {a b c : Nat} {path : List Nat}

/-- **Post-dominance**: some walk from `b` ends at an exit, and every such walk passes `a`. -/
structure PostDominates (g : Graph) (a b : Nat) : Prop where
  leaves : ∃ exit, g.isExit exit = true ∧ Reaches g.successors b exit
  passed : ∀ exit path, g.isExit exit = true → Walk g.successors b exit path → a ∈ path

/-- What can leave the contract is a node. -/
lemma lt_size_of_reaches_exit (hexit : g.isExit c = true) (h : Reaches g.successors b c) :
    b < g.size := by
  obtain ⟨path, hpath⟩ := h
  cases hpath with
  | single => exact lt_size_of_isExit hexit
  | cons hstep _ => exact lt_size_of_mem_successors hstep

lemma PostDominates.lt_size (hg : g.Closed) (h : g.PostDominates a b) : a < g.size ∧ b < g.size := by
  obtain ⟨exit, hexit, path, hpath⟩ := h.leaves
  have hb : b < g.size := lt_size_of_reaches_exit hexit ⟨path, hpath⟩
  refine ⟨?_, hb⟩
  exact hpath.forall_mem (P := (· < g.size)) hb (fun _ _ _ => hg.lt_of_mem_successors) a
    (h.passed exit path hexit hpath)

/-! ## Walks from the sink -/

section Sink

variable (hg : g.Closed) (hentries : r.entries = g.exits)
  (hsucc : ∀ i j, i ∈ (r.successors j).map (·.2) ↔ j ∈ g.successors i)

include hentries in
lemma mem_towardEntry_sink : a ∈ towardEntry r g.size g.size ↔ g.isExit a = true := by
  rw [towardEntry, if_pos rfl, hentries, mem_exits]

include hsucc in
lemma mem_towardEntry_of_lt (hb : b < g.size) :
    a ∈ towardEntry r g.size b ↔ b ∈ g.successors a := by
  rw [towardEntry, if_neg hb.ne, hsucc]

include hentries hsucc in
/-- The reversed graph leads from the sink and from nodes to nodes. -/
lemma lt_of_mem_towardEntry (hb : b < g.size + 1) (h : a ∈ towardEntry r g.size b) : a < g.size := by
  rcases Nat.lt_succ_iff_lt_or_eq.mp hb with hb | rfl
  · exact lt_size_of_mem_successors ((mem_towardEntry_of_lt hsucc hb).mp h)
  · exact lt_size_of_isExit ((mem_towardEntry_sink hentries).mp h)

include hg hentries hsucc in
/-- **The walks from the sink to a node** are the walks from the node to an exit, turned round. -/
lemma walk_towardEntry_iff (hb : b < g.size) :
    Walk (towardEntry r g.size) g.size b path ↔
      ∃ exit walk, g.isExit exit = true ∧ Walk g.successors b exit walk ∧
        path = g.size :: walk.reverse := by
  constructor
  · intro h
    cases h with
    | single => exact absurd hb (Nat.lt_irrefl _)
    | @cons _ exit _ tail hexit h =>
        rw [mem_towardEntry_sink hentries] at hexit
        have hlt : ∀ x ∈ tail, x < g.size := by
          refine h.forall_mem (lt_size_of_isExit hexit) fun x hx y hy => ?_
          exact lt_of_mem_towardEntry hentries hsucc (Nat.lt_succ_of_lt hx) hy
        refine ⟨exit, tail.reverse, hexit, h.reversed fun x hx y hy => ?_, by simp⟩
        exact (mem_towardEntry_of_lt hsucc (hlt x hx)).mp hy
  · rintro ⟨exit, walk, hexit, h, rfl⟩
    refine .cons ((mem_towardEntry_sink hentries).mpr hexit) (h.reversed fun x _ y hy => ?_)
    exact (mem_towardEntry_of_lt hsucc (hg.lt_of_mem_successors hy)).mpr hy

include hg hentries hsucc in
/-- **Dominance from the sink is post-dominance**, among the nodes. -/
lemma dominates_towardEntry_iff (ha : a < g.size) (hb : b < g.size) :
    Dominates (towardEntry r g.size) g.size a b ↔ g.PostDominates a b := by
  have hwalk : ∀ path, Walk (towardEntry r g.size) g.size b path ↔ _ :=
    fun path => walk_towardEntry_iff hg hentries hsucc hb
  constructor
  · intro h
    obtain ⟨path, hpath⟩ := h.reached
    obtain ⟨exit, walk, hexit, hforth, _⟩ := (hwalk path).mp hpath
    refine ⟨⟨exit, hexit, walk, hforth⟩, fun exit walk hexit hforth => ?_⟩
    have hmem := h.passed _ ((hwalk _).mpr ⟨exit, walk, hexit, hforth, rfl⟩)
    simpa [ha.ne] using hmem
  · intro h
    obtain ⟨exit, hexit, walk, hforth⟩ := h.leaves
    refine ⟨⟨_, (hwalk _).mpr ⟨exit, walk, hexit, hforth, rfl⟩⟩, fun path hpath => ?_⟩
    obtain ⟨exit, walk, hexit, hforth, rfl⟩ := (hwalk path).mp hpath
    exact List.mem_cons_of_mem _ (List.mem_reverse.mpr (h.passed exit walk hexit hforth))

end Sink

/-! ## Answers -/

/-- The sink is the root that is added, and it is not reported. -/
lemma Closed.postDominance_eq (hg : g.Closed) (hexits : g.exits ≠ []) :
    ∃ d, g.postDominance = .ok (some d) ∧ d.Answers g.PostDominates := by
  obtain ⟨r, hr, hentries, hsucc⟩ := hg.reversed_eq
  have hnext : ∀ i < g.size + 1, ∀ j ∈ towardEntry r g.size i, j < g.size :=
    fun i hi j => lt_of_mem_towardEntry hentries hsucc hi
  obtain ⟨inner, hinner, hcorrect⟩ := Dominators.compute_eq
    (fun i hi j hj => Nat.lt_succ_of_lt (hnext i hi j hj)) (Nat.lt_succ_self g.size)
  have hreal : ∀ a, Reaches (towardEntry r g.size) g.size a → some a ≠ some g.size → a < g.size := by
    intro a ha hne
    have hle : a < g.size + 1 := ha.preserves (P := (· < g.size + 1)) (Nat.lt_succ_self _)
      fun x hx y hy => Nat.lt_succ_of_lt (hnext x hx y hy)
    exact Nat.lt_of_le_of_ne (Nat.le_of_lt_succ hle) fun heq => hne (congrArg some heq)
  refine ⟨⟨inner, some g.size, g.size⟩, ?_, Dominance.answers hcorrect ?_ hreal fun a b => ?_⟩
  · have hsome : g.exits.isEmpty = false := by simpa using hexits
    simp only [postDominance, hsome, hr, hinner, bind, Except.bind, pure, Except.pure]
    rfl
  · rintro r hr
    obtain rfl := Option.some.inj hr
    exact ⟨rfl, le_rfl⟩
  · constructor
    · intro h
      obtain ⟨ha, hb⟩ := h.lt_size hg
      refine ⟨hb, (dominates_towardEntry_iff hg hentries hsucc ha hb).mpr h, fun heq => ?_⟩
      exact ha.ne (Option.some.inj heq)
    · rintro ⟨hb, h, hne⟩
      exact (dominates_towardEntry_iff hg hentries hsucc (hreal a h.reached_left hne) hb).mp h

lemma postDominance_eq_none (hexits : g.exits = []) : g.postDominance = .ok none := by
  simp [postDominance, hexits, pure, Except.pure]

/-- With or without an exit: where there is no answer, nothing dominates anything. -/
lemma Closed.postDominance_any (hg : g.Closed) :
    ∃ p, g.postDominance = .ok p ∧
      ∀ a b, p.any (·.dominates a b) = true ↔ g.PostDominates a b := by
  by_cases hexits : g.exits = []
  · refine ⟨none, postDominance_eq_none hexits, fun a b => ?_⟩
    simp only [Option.any_none, Bool.false_eq_true, false_iff]
    rintro ⟨⟨exit, hexit, _⟩, _⟩
    simpa [hexits] using mem_exits.mpr hexit
  · obtain ⟨d, hd, hanswers⟩ := hg.postDominance_eq hexits
    exact ⟨some d, hd, hanswers.dominates_iff⟩

/-- **Post-dominators mean post-dominance.**  `a` is reported as a post-dominator of `b` exactly if `b`
is a node from which an exit can be reached and every walk from `b` that ends at an exit passes `a`;
the post-dominators are listed in ascending order and without the sink; and the closest one is the
strict post-dominator that the other ones post-dominate, where there is a strict one. -/
theorem postDominance_iff_walks (g : Graph) (hg : g.Closed) (hexits : g.exits ≠ []) :
    ∃ d, g.postDominance = .ok (some d) ∧
      (∀ a b, d.dominates a b = true ↔
        (b < g.size ∧ ∃ exit, g.isExit exit = true ∧ Reaches g.successors b exit) ∧
          ∀ exit path, g.isExit exit = true → Walk g.successors b exit path → a ∈ path) ∧
      (∀ b, (d.dominators b).Pairwise (· < ·) ∧ g.size ∉ d.dominators b ∧
        ∀ a, a ∈ d.dominators b ↔ g.PostDominates a b) ∧
      (∀ b c, d.immediate? b = some c ↔ Closest g.PostDominates c b) ∧
      ∀ b, d.immediate? b = none ↔ ∀ a, a ≠ b → ¬g.PostDominates a b := by
  obtain ⟨d, hd, hanswers⟩ := hg.postDominance_eq hexits
  refine ⟨d, hd, fun a b => ?_, fun b => ⟨hanswers.ascending b, fun hsink => ?_, fun a => ?_⟩,
    hanswers.immediate?_eq_some_iff, hanswers.immediate?_eq_none_iff⟩
  · rw [hanswers.dominates_iff]
    exact ⟨fun h => ⟨⟨(h.lt_size hg).2, h.leaves⟩, h.passed⟩, fun h => ⟨h.1.2, h.2⟩⟩
  · have hdom := (hanswers.mem_dominators_iff g.size b).mp hsink
    exact Nat.lt_irrefl _ (hdom.lt_size hg).1
  · exact hanswers.mem_dominators_iff a b

/-- Every walk from the entry of the sample graph that ends at an exit ends at the second one, because
nothing leads to the first one. -/
lemma sample_postDominates : sample.PostDominates 5 0 := by
  refine ⟨⟨5, by decide, _, sample_walk⟩, fun exit path hexit hpath => ?_⟩
  have hmem : exit ∈ [2, 5] := mem_exits.mpr hexit
  rcases List.mem_cons.mp hmem with rfl | hmem
  · exact absurd ⟨path, hpath⟩ sample_not_reaches
  · obtain rfl := List.mem_singleton.mp hmem
    exact hpath.last_mem

/-- In the sample graph the code runs on behind an exit and never leaves from there, and the exit
that nothing leads to is post-dominated by itself alone.  The other one is behind the entry. -/
theorem postDominance_sample :
    sample.Closed ∧ sample.exits ≠ [] ∧
      ∃ d, sample.postDominance = .ok (some d) ∧ d.dominates 6 6 = false ∧
        d.dominates 5 2 = false ∧ d.dominates 5 0 = true ∧ d.immediate? 5 = none ∧
        7 ∉ d.dominators 0 := by
  obtain ⟨d, hd, hdom, hset, _, hnone⟩ := postDominance_iff_walks sample (by decide) (by decide)
  refine ⟨by decide, by decide, d, hd, ?_, ?_, ?_, ?_, (hset 0).2.1⟩
  · rw [← Bool.not_eq_true, hdom]
    rintro ⟨⟨_, exit, hexit, path, hpath⟩, _⟩
    cases hpath with
    | single => exact absurd hexit (by decide)
    | cons hstep _ => simp [successors, sample, Node.targets, EdgeKind.all, Node.edge] at hstep
  · rw [← Bool.not_eq_true, hdom]
    rintro ⟨_, hpass⟩
    exact absurd (hpass 2 [2] (by decide) (.single 2)) (by decide)
  · exact (hdom 5 0).mpr ⟨⟨by decide, sample_postDominates.leaves⟩, sample_postDominates.passed⟩
  · rw [hnone]
    intro a hne h
    have hself := h.passed 5 [5] (by decide) (.single 5)
    exact hne (List.mem_singleton.mp hself)

end BytecodeFlow.Graph
