import BytecodeFlow.Graph.Dominators
import BytecodeFlow.Graph.Reversed

/-!
# Dominance

A node dominates another one if every way from the root to the other one leads through it.  The root may be a
node that a graph does not have and that is put before its ways in; then it is not reported.

* `Dominance` — the immediate dominators, the root that is not reported, and the size of the graph.
* `contains`, `immediate?`, `dominators`, `dominates` — what is asked.  All but the first go along the
  immediate dominators.
* `Graph.dominance` — along the edges, from the entry.  Here and below node numbers have 32 bits.
* `Graph.postDominance` — against the edges, from a sink that stands behind all exits.  The sink
  is numbered after the last node.
-/

namespace BytecodeFlow

/-- Which of `size` nodes dominate which. -/
structure Dominance where
  inner : Dominators
  /-- The root, if it is none of the nodes. -/
  virtualRoot : Option Nat
  size : Nat

namespace Dominance

/-- A node that is reported: any but the root that was added. -/
def toNode (d : Dominance) (id : Nat) : Option Nat :=
  if some id = d.virtualRoot then none else some id

/-- Whether a number is that of a node of the graph. -/
def inRange (d : Dominance) (id : Nat) : Bool :=
  id < d.size

/-- Whether the root reaches a node. -/
def contains (d : Dominance) (id : Nat) : Bool :=
  d.inRange id && (d.inner.dominators? id).isSome

/-- **The closest of the other nodes that dominate a node.**  There is none for the root, for nodes that
it does not reach, and for those that only the added root dominates. -/
def immediate? (d : Dominance) (id : Nat) : Option Nat :=
  if d.inRange id then (d.inner.immediate? id).bind d.toNode else none

/-- **The nodes that dominate a node**, itself included, in ascending order. -/
def dominators (d : Dominance) (id : Nat) : List Nat :=
  if d.inRange id then
    let found :=
      match d.inner.dominators? id with
      | some chain => chain.filterMap d.toNode
      | none => []
    found.mergeSort
  else []

/-- **Whether every way from the root to `b` leads through `a`**, where there is such a way. -/
def dominates (d : Dominance) (a b : Nat) : Bool :=
  if d.inRange b then
    match d.inner.dominators? b with
    | some chain => chain.any fun id => id = a && some id ≠ d.virtualRoot
    | none => false
  else false

end Dominance

namespace Graph

/-- **Dominance from the entry.** -/
def dominance (g : Graph) : Except Error Dominance := do
  let cut ← g.wrapped
  return ⟨← Dominators.compute g.size cut.successors g.entry, none, g.size⟩

/-- The successors in the reversed graph with a sink behind its exits. -/
def towardEntry (reversed : Reversed) (sink id : Nat) : List Nat :=
  if id = sink then reversed.entries else (reversed.successors id).map (·.2)

/-- **Dominance against the edges**, from the exits; there is none without an exit. -/
def postDominance (g : Graph) : Except Error (Option Dominance) := do
  if g.exits.isEmpty then return none
  let reversed ← g.reversed
  let inner ← Dominators.compute (g.size + 1) (towardEntry reversed g.size) g.size
  return some ⟨inner, some g.size, g.size⟩

end Graph

end BytecodeFlow
