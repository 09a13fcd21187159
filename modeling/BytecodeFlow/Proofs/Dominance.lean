import Mathlib
import BytecodeFlow.Graph.Dominance
import BytecodeFlow.Proofs.Edges
import BytecodeFlow.Proofs.ImmediateDominators

/-!
# Dominance is a statement about all walks

`Dominators.compute` gives every node its immediate dominator (`Dominators.compute_eq`), and the way along
them passes all dominators of a node (`Dominators.Correct.mem_chain_iff`).  What is asked of a `Dominance` is
answered from these two, with the root left out where it is no node of the graph.

**Answers.**  `Dominance.Answers` says that all questions are answered by one relation: the dominators in
ascending order, and the closest of the other ones.  It holds of dominance among the nodes of the graph
(`Dominance.answers`), whether or not a root was added, so that the same statement serves dominance in both
directions.

**An added root** dominates whatever it reaches and is dominated by itself alone.  So it is the closest
dominator of a node only if no node of the graph is, and then nothing is reported.
-/

namespace BytecodeFlow

variable {next : Nat → List Nat} {root a b c : Nat}

/-! ## Answers -/

namespace Dominance

/-- **All questions are answered by one relation.** -/
structure Answers (d : Dominance) (dom : Nat → Nat → Prop) : Prop where
  contains_iff : ∀ b, d.contains b = true ↔ dom b b
  dominates_iff : ∀ a b, d.dominates a b = true ↔ dom a b
  ascending : ∀ b, (d.dominators b).Pairwise (· < ·)
  mem_dominators_iff : ∀ a b, a ∈ d.dominators b ↔ dom a b
  immediate?_eq_some_iff : ∀ b c, d.immediate? b = some c ↔ Closest dom c b
  immediate?_eq_none_iff : ∀ b, d.immediate? b = none ↔ ∀ a, a ≠ b → ¬dom a b

variable {d : Dominance}

lemma toNode_eq_some_iff : d.toNode a = some b ↔ a = b ∧ some a ≠ d.virtualRoot := by
  rw [toNode]
  split_ifs with hroot
  · simp [hroot]
  · simp [hroot]

section Correct

variable (h : d.inner.Correct next root)

include h

lemma contains_iff : d.contains b = true ↔ b < d.size ∧ Reaches next root b := by
  rw [contains, Bool.and_eq_true, inRange, decide_eq_true_eq]
  by_cases hb : Reaches next root b
  · simp [h.dominators?_of_reaches hb, hb]
  · simp [h.dominators?_of_not_reaches hb, hb]

lemma dominates_iff :
    d.dominates a b = true ↔ b < d.size ∧ Dominates next root a b ∧ some a ≠ d.virtualRoot := by
  rw [dominates, inRange]
  by_cases hlt : b < d.size
  · by_cases hb : Reaches next root b
    · simp only [hlt, decide_true, if_true, h.dominators?_of_reaches hb, List.any_eq_true,
        Bool.and_eq_true, decide_eq_true_eq, h.mem_chain_iff hb, true_and]
      constructor
      · rintro ⟨id, hdom, rfl, hroot⟩
        exact ⟨hdom, hroot⟩
      · exact fun hdom => ⟨a, hdom.1, rfl, hdom.2⟩
    · simp only [hlt, decide_true, if_true, h.dominators?_of_not_reaches hb, Bool.false_eq_true,
        true_and, false_iff]
      exact fun hdom => hb hdom.1.reached
  · simp [hlt]

/-- What is sorted is the way up from the node, without the root that was added. -/
lemma dominators_eq (b : Nat) :
    ∃ found : List Nat, d.dominators b = found.mergeSort ∧ found.Nodup ∧
      ∀ a, a ∈ found ↔ b < d.size ∧ Dominates next root a b ∧ some a ≠ d.virtualRoot := by
  rw [dominators, inRange]
  by_cases hlt : b < d.size
  · by_cases hb : Reaches next root b
    · refine ⟨(d.inner.chain b).filterMap d.toNode, ?_, ?_, fun a => ?_⟩
      · simp only [hlt, decide_true, if_true, h.dominators?_of_reaches hb]
      · refine (h.nodup_chain hb).filterMap fun x y z hx hy => ?_
        rw [Option.mem_def, toNode_eq_some_iff] at hx hy
        exact hx.1.trans hy.1.symm
      · simp only [List.mem_filterMap, toNode_eq_some_iff, h.mem_chain_iff hb, hlt, true_and]
        constructor
        · rintro ⟨id, hdom, rfl, hroot⟩
          exact ⟨hdom, hroot⟩
        · exact fun hdom => ⟨a, hdom.1, rfl, hdom.2⟩
    · refine ⟨[], ?_, List.nodup_nil, fun a => ?_⟩
      · simp only [hlt, decide_true, if_true, h.dominators?_of_not_reaches hb]
      · simp only [List.not_mem_nil, false_iff]
        exact fun hdom => hb hdom.2.1.reached
  · exact ⟨[], by simp [hlt], List.nodup_nil, by simp [hlt]⟩

lemma mem_dominators_iff :
    a ∈ d.dominators b ↔ b < d.size ∧ Dominates next root a b ∧ some a ≠ d.virtualRoot := by
  obtain ⟨found, hfound, _, hmem⟩ := dominators_eq h b
  rw [hfound, List.mem_mergeSort, hmem]

/-- Sorting a list without repetitions makes it ascend strictly. -/
lemma pairwise_dominators (b : Nat) : (d.dominators b).Pairwise (· < ·) := by
  obtain ⟨found, hfound, hnodup, _⟩ := dominators_eq h b
  rw [hfound]
  have hsorted : found.mergeSort.Pairwise fun x y => decide (x ≤ y) = true :=
    List.pairwise_mergeSort (by simp; omega) (by simp; omega) found
  have hdistinct : found.mergeSort.Nodup := (List.mergeSort_perm found _).nodup_iff.mpr hnodup
  refine hsorted.imp₂ (fun x y hle hne => ?_) hdistinct
  exact lt_of_le_of_ne (of_decide_eq_true hle) hne

lemma immediate?_eq_some_iff : d.immediate? b = some c ↔
    b < d.size ∧ Closest (Dominates next root) c b ∧ some c ≠ d.virtualRoot := by
  rw [immediate?, inRange]
  by_cases hlt : b < d.size
  · simp only [hlt, decide_true, if_true, Option.bind_eq_some_iff, h.immediate_iff,
      toNode_eq_some_iff, true_and]
    constructor
    · rintro ⟨id, hclosest, rfl, hroot⟩
      exact ⟨hclosest, hroot⟩
    · exact fun hc => ⟨c, hc.1, rfl, hc.2⟩
  · simp [hlt]

section Among

variable {dom : Nat → Nat → Prop} (hroot : ∀ r, d.virtualRoot = some r → r = root ∧ d.size ≤ r)
  (hreal : ∀ a, Reaches next root a → some a ≠ d.virtualRoot → a < d.size)
  (hdom : ∀ a b, dom a b ↔ b < d.size ∧ Dominates next root a b ∧ some a ≠ d.virtualRoot)

include hroot hreal hdom

/-- The closest dominator is the closest one among the nodes of the graph too, since an added root dominates
whatever it reaches. -/
lemma immediate?_eq_some_iff_closest : d.immediate? b = some c ↔ Closest dom c b := by
  rw [immediate?_eq_some_iff h]
  constructor
  · rintro ⟨hb, hc, hcreal⟩
    refine ⟨hc.ne, (hdom c b).mpr ⟨hb, hc.dominates, hcreal⟩, fun a hne hab hac => ?_⟩
    obtain ⟨_, hab, hareal⟩ := (hdom a b).mp hab
    exact (hdom a c).mpr
      ⟨hreal c hc.dominates.reached_left hcreal, hc.closest a hne hab hac, hareal⟩
  · intro hc
    obtain ⟨hb, hcb, hcreal⟩ := (hdom c b).mp hc.dominates
    refine ⟨hb, ⟨hc.ne, hcb, fun a hne hab hac => ?_⟩, hcreal⟩
    by_cases hareal : some a = d.virtualRoot
    · rw [(hroot a hareal.symm).1]
      exact .of_root hcb.reached_left
    · exact ((hdom a c).mp (hc.closest a hne ((hdom a b).mpr ⟨hb, hab, hareal⟩) hac)).2.1

/-- A node that another one dominates has a closest dominator, and that is not an added root: only the root
itself dominates the root. -/
lemma immediate?_eq_none_iff : d.immediate? b = none ↔ ∀ a, a ≠ b → ¬dom a b := by
  constructor
  · intro hnone a hne hab
    obtain ⟨hb, hab, hareal⟩ := (hdom a b).mp hab
    have hbroot : b ≠ root := fun heq => hne ((heq ▸ hab).eq_root.trans heq.symm)
    obtain ⟨c, hc⟩ := h.exists_closest hab.reached hbroot
    have hcreal : some c ≠ d.virtualRoot := by
      intro hvirtual
      have hac : a ≠ c := fun heq => hareal (heq ▸ hvirtual)
      have hcroot := (hroot c hvirtual.symm).1
      exact hac ((hcroot ▸ hc.closest a hne hab hac).eq_root.trans hcroot.symm)
    rw [(immediate?_eq_some_iff h).mpr ⟨hb, hc, hcreal⟩] at hnone
    cases hnone
  · intro hall
    rw [Option.eq_none_iff_forall_ne_some]
    intro c hc
    have hc := (immediate?_eq_some_iff_closest h hroot hreal hdom).mp hc
    exact hall c hc.ne hc.dominates

/-- **The questions are answered by dominance among the nodes of the graph**, if no other node is reached
than these and the root that may have been added. -/
lemma answers : d.Answers dom where
  contains_iff b := by
    rw [contains_iff h, hdom]
    refine ⟨fun hb => ⟨hb.1, .refl hb.2, fun hvirtual => ?_⟩, fun hb => ⟨hb.1, hb.2.1.reached⟩⟩
    exact absurd hb.1 (Nat.not_lt.mpr (hroot b hvirtual.symm).2)
  dominates_iff a b := by rw [dominates_iff h, hdom]
  ascending := pairwise_dominators h
  mem_dominators_iff a b := by rw [mem_dominators_iff h, hdom]
  immediate?_eq_some_iff _ _ := immediate?_eq_some_iff_closest h hroot hreal hdom
  immediate?_eq_none_iff _ := immediate?_eq_none_iff h hroot hreal hdom

end Among

end Correct

end Dominance

/-! ## Dominance in a graph -/

namespace Graph

lemma Closed.reaches_lt {g : Graph} (hg : g.Closed) (hentry : g.entry < g.size)
    (h : Reaches g.successors g.entry a) : a < g.size :=
  h.preserves (P := (· < g.size)) hentry fun _ _ _ => hg.lt_of_mem_successors

lemma Closed.dominates_lt {g : Graph} (hg : g.Closed) (hentry : g.entry < g.size)
    (h : Dominates g.successors g.entry a b) : a < g.size ∧ b < g.size :=
  ⟨hg.reaches_lt hentry h.reached_left, hg.reaches_lt hentry h.reached⟩

/-- No root is added for dominance from the entry, so all dominators are reported. -/
lemma Closed.dominance_eq {g : Graph} (hg : g.Closed) (hentry : g.entry < g.size) :
    ∃ d, g.dominance = .ok d ∧ d.Answers (Dominates g.successors g.entry) := by
  obtain ⟨inner, hinner, hcorrect⟩ := Dominators.compute_eq (closed_iff_successors.mp hg) hentry
  refine ⟨⟨inner, none, g.size⟩, ?_, Dominance.answers hcorrect ?_ ?_ ?_⟩
  · simp only [dominance, hg.wrapped_eq, hinner, bind, Except.bind, pure, Except.pure]
  · exact fun r hr => absurd hr (Option.some_ne_none r).symm
  · exact fun a ha _ => hg.reaches_lt hentry ha
  · intro a b
    exact ⟨fun h => ⟨hg.reaches_lt hentry h.reached, h, Option.some_ne_none a⟩, fun h => h.2.1⟩

/-- **Dominators mean dominance.**  `a` is reported as a dominator of `b` exactly if the entry reaches
`b` and every walk from the entry to `b` passes `a`; the dominators are listed in ascending order; and
the closest one is the strict dominator that the other ones dominate, which only the entry and nodes
that cannot be reached do not have. -/
theorem dominance_iff_walks (g : Graph) (hg : g.Closed) (hentry : g.entry < g.size) :
    ∃ d, g.dominance = .ok d ∧
      (∀ a b, d.dominates a b = true ↔
        Reaches g.successors g.entry b ∧ ∀ path, Walk g.successors g.entry b path → a ∈ path) ∧
      (∀ b, (d.dominators b).Pairwise (· < ·) ∧
        ∀ a, a ∈ d.dominators b ↔ Dominates g.successors g.entry a b) ∧
      (∀ b, ¬Reaches g.successors g.entry b ∨ g.size ≤ b → d.dominators b = []) ∧
      (∀ b c, d.immediate? b = some c ↔ Closest (Dominates g.successors g.entry) c b) ∧
      ∀ b, d.immediate? b = none ↔
        b = g.entry ∨ ¬Reaches g.successors g.entry b ∨ g.size ≤ b := by
  obtain ⟨d, hd, hanswers⟩ := hg.dominance_eq hentry
  have hrange : ∀ b, g.size ≤ b → ¬Reaches g.successors g.entry b :=
    fun b hb hreach => absurd (hg.reaches_lt hentry hreach) (Nat.not_lt.mpr hb)
  refine ⟨d, hd, fun a b => ?_, fun b => ⟨hanswers.ascending b, fun a => hanswers.mem_dominators_iff a b⟩,
    fun b hb => ?_, hanswers.immediate?_eq_some_iff, fun b => ?_⟩
  · rw [hanswers.dominates_iff]
    exact ⟨fun h => ⟨h.reached, h.passed⟩, fun h => ⟨h.1, h.2⟩⟩
  · rw [List.eq_nil_iff_forall_not_mem]
    intro a ha
    have hreach := ((hanswers.mem_dominators_iff a b).mp ha).reached
    rcases hb with hb | hb
    · exact hb hreach
    · exact hrange b hb hreach
  · rw [hanswers.immediate?_eq_none_iff]
    constructor
    · intro hnone
      by_contra hother
      push Not at hother
      exact hnone g.entry (Ne.symm hother.1) (.of_root hother.2.1)
    · rintro (rfl | hb | hb) a hne hab
      · exact hne hab.eq_root
      · exact hb hab.reached
      · exact hrange b hb hab.reached

/-- Nothing leads to the node with the revert in the sample graph. -/
lemma sample_not_reaches : ¬Reaches sample.successors 0 2 := by
  intro hreach
  have hne : ∀ x < sample.size, ∀ y ∈ sample.successors x, y ≠ 2 := by decide
  exact absurd rfl (hreach.preserves (P := (· ≠ 2)) (by decide)
    fun x _ y hy => hne x (lt_size_of_mem_successors hy) y hy)

lemma sample_walk : Walk sample.successors 0 5 [0, 1, 5] :=
  .cons (by decide) (.cons (by decide) (.single 5))

/-- The only way on from the entry of the sample graph leads to the jump that heads the loop. -/
lemma sample_dominates : Dominates sample.successors 0 1 5 := by
  refine ⟨⟨_, sample_walk⟩, fun path hpath => ?_⟩
  cases hpath with
  | @cons _ x _ path hstep hrest =>
      have hx : x ∈ [1] := hstep
      obtain rfl := List.mem_singleton.mp hx
      exact List.mem_cons_of_mem _ hrest.first_mem

lemma sample_not_dominates : ¬Dominates sample.successors 0 4 5 :=
  fun h => absurd (h.passed _ sample_walk) (by decide)

/-- In the sample graph the exit is reached past the jump that heads the loop, and not past its end; the
entry comes just before that jump. -/
theorem dominance_sample :
    sample.Closed ∧ sample.entry < sample.size ∧
      ∃ d, sample.dominance = .ok d ∧ d.dominates 1 5 = true ∧ d.dominates 4 5 = false ∧
        d.immediate? 0 = none ∧ d.immediate? 1 = some 0 ∧ d.dominators 2 = [] := by
  obtain ⟨d, hd, hdom, _, hnil, hclosest, hnone⟩ := dominance_iff_walks sample (by decide) (by decide)
  refine ⟨by decide, by decide, d, hd, (hdom 1 5).mpr ⟨sample_dominates.reached, sample_dominates.passed⟩,
    ?_, (hnone 0).mpr (Or.inl rfl), (hclosest 1 0).mpr ⟨by decide, ?_, ?_⟩,
    hnil 2 (Or.inl sample_not_reaches)⟩
  · rw [← Bool.not_eq_true, hdom]
    exact fun h => sample_not_dominates ⟨h.1, h.2⟩
  · exact .of_root ⟨[0, 1], .cons (by decide) (.single 1)⟩
  · intro a hne hab hne'
    have hmem := hab.passed [0, 1] (.cons (by decide) (.single 1))
    simp [hne, hne'] at hmem

end Graph

end BytecodeFlow
