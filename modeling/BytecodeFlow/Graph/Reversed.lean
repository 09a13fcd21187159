import BytecodeFlow.Graph.Basic

/-!
# Graphs with their edges reversed

A node can have any number of edges leading to it, so a reversed graph holds a list of edges for
every node instead of three slots.

* `Graph.predecessorLists` — the sources of the edges that lead to each node.
* `Reversed`, `Graph.reversed` — the reversed graph, which starts at the exits and ends at the
  entry.  Its node numbers have 32 bits.
* `Reversed.successors` — the edges of the reversed graph, which are put in order when they are
  asked for.
-/

namespace BytecodeFlow

/-- A graph with its edges reversed. -/
structure Reversed where
  /-- The offsets of the nodes. -/
  offsets : Array Nat
  /-- The reversed edges of each node as they are stored, the last one added in front: the kind of
  the edge, and the node it came from. -/
  outgoing : Array (List (EdgeKind × Nat))
  /-- Where the reversed graph starts: the exits of the graph. -/
  entries : List Nat
  /-- Where the reversed graph ends: the entry of the graph. -/
  exit : Nat
deriving DecidableEq, Repr

namespace Reversed

/-- The number of edges. -/
def edgeCount (r : Reversed) : Nat :=
  r.outgoing.toList.flatten.length

/-- Whether a reversed edge comes before another one: by the node that it leads to, and then by its
slot. -/
def inOrder (a b : EdgeKind × Nat) : Bool :=
  a.2 < b.2 || (a.2 = b.2 && a.1.place ≤ b.1.place)

/-- **The reversed edges of a node**, in order. -/
def successors (r : Reversed) (id : Nat) : List (EdgeKind × Nat) :=
  (r.outgoing[id]?.getD []).mergeSort inOrder

end Reversed

namespace Graph

/-- **The sources of the edges that lead to each node**: every source is put behind those of its
target. -/
def predecessorLists (g : Graph) : Except Error (Array (List Nat)) := do
  g.checkEdges
  let lists := g.edges.foldl (fun lists edge => lists.modify edge.target (·.push edge.source))
    (Array.replicate g.size #[])
  return lists.map Array.toList

/-- **The graph with its edges reversed**: for every edge one that leads back is added. -/
def reversed (g : Graph) : Except Error Reversed := do
  let cut ← g.wrapped
  let outgoing := cut.edges.foldl
    (fun table edge => table.modify edge.target ((edge.kind, edge.source) :: ·))
    (Array.replicate g.size [])
  return ⟨g.nodes.map Node.offset, outgoing, g.exits, g.entry⟩

end Graph

end BytecodeFlow
