import Mathlib
import BytecodeFlow.Proofs.Walk

/-!
# Dominance as an order

`Dominates next root a b` says that `b` can be reached from the root, and that every walk from the root to
`b` passes `a`.  Dominance is a partial order (`Dominates.trans`, `antisymm`) in which the root is below
everything that it reaches (`Dominates.of_root`).

What dominates a node, itself apart, dominates all nodes that are reached and lead to it
(`Dominates.of_step`), so a node has one immediate dominator at most (`Closest.unique`).
-/

namespace BytecodeFlow

variable {next : Nat → List Nat} {root a b c : Nat}

/-- **Dominance**: there is a walk from the root to `b`, and every such walk passes `a`. -/
structure Dominates (next : Nat → List Nat) (root a b : Nat) : Prop where
  reached : Reaches next root b
  passed : ∀ path, Walk next root b path → a ∈ path

/-- The closest of the strict dominators: the others dominate it. -/
structure Closest (dom : Nat → Nat → Prop) (c b : Nat) : Prop where
  ne : c ≠ b
  dominates : dom c b
  closest : ∀ a, a ≠ b → dom a b → a ≠ c → dom a c

namespace Dominates

lemma refl (h : Reaches next root b) : Dominates next root b b :=
  ⟨h, fun _ hpath => hpath.last_mem⟩

lemma of_root (h : Reaches next root b) : Dominates next root root b :=
  ⟨h, fun _ hpath => hpath.first_mem⟩

/-- Nothing but the root dominates the root. -/
lemma eq_root (h : Dominates next root a root) : a = root := by
  simpa using h.passed [root] (.single root)

/-- A dominator can be reached, on the way to what it dominates. -/
lemma reached_left (h : Dominates next root a b) : Reaches next root a := by
  obtain ⟨path, hpath⟩ := h.reached
  obtain ⟨init, tail, _, hinit, _⟩ := hpath.split (h.passed path hpath)
  exact ⟨init ++ [a], hinit⟩

lemma trans (hab : Dominates next root a b) (hbc : Dominates next root b c) :
    Dominates next root a c := by
  refine ⟨hbc.reached, fun path hpath => ?_⟩
  obtain ⟨init, tail, rfl, hinit, _⟩ := hpath.split (hbc.passed path hpath)
  have hmem : a ∈ init ++ [b] := hab.passed _ hinit
  simp only [List.mem_append, List.mem_cons, List.not_mem_nil, or_false] at hmem ⊢
  exact hmem.imp_right Or.inl

lemma antisymm (hab : Dominates next root a b) (hba : Dominates next root b a) : a = b := by
  -- the walk to `a` that stops at its first visit passes `b`, and is at `b` before it is at `a`
  obtain ⟨path, hpath⟩ := hba.reached
  obtain ⟨short, hshort, hfirst⟩ := hpath.to_first
  rcases hshort.mem_iff.mp (hba.passed short hshort) with hb | hb
  · obtain ⟨shorter, hwalk, hsub⟩ := hshort.before hb
    exact absurd (hsub a (hab.passed shorter hwalk)) hfirst
  · exact hb.symm

/-- **What dominates a node dominates the nodes that lead to it**, unless it is the node itself. -/
lemma of_step (h : Dominates next root a b) (hne : a ≠ b) (hc : Reaches next root c) (hcb : b ∈ next c) :
    Dominates next root a c := by
  refine ⟨hc, fun path hpath => ?_⟩
  have hmem : a ∈ path ++ [b] := h.passed _ (hpath.snoc hcb)
  simpa [hne] using hmem

end Dominates

/-- A node has one closest dominator at most. -/
lemma Closest.unique {dom : Nat → Nat → Prop} (hanti : ∀ a b, dom a b → dom b a → a = b)
    (h : Closest dom a c) (h' : Closest dom b c) : a = b := by
  by_contra hne
  exact hne (hanti a b (h'.closest a h.ne h.dominates hne) (h.closest b h'.ne h'.dominates (Ne.symm hne)))

end BytecodeFlow
