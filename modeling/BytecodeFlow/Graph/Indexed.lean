import BytecodeFlow.CodeIndex
import BytecodeFlow.Graph.Reach

/-!
# Graphs with tables beside them

A graph that is asked questions and changed by turns keeps what is asked for most in tables, which
are brought up to date with each change instead of being read off the nodes every time.

* `IndexedGraph` — the nodes, and beside them the instructions, the node at every offset, the entry
  and the exits in order.
* `IndexedGraph.build`, `setEdge`, `prune` — a graph with its tables, and its changes.
* `nodeAt?`, `isExit` — questions that are answered from a table alone.
* `Edit` — the changes as data.
-/

namespace BytecodeFlow

/-- The items that carry a mark, in order. -/
def keepMarked {α : Type} (items : Array α) (marks : Array Bool) : Array α :=
  (items.zip marks).filterMap fun entry => if entry.2 then some entry.1 else none

/-- A graph with the tables that are kept beside it. -/
structure IndexedGraph where
  graph : Graph
  instructions : Array Instruction
  /-- The node at each offset. -/
  positions : Std.HashMap Nat Nat
  /-- The node at which execution starts. -/
  entry : Nat
  /-- The nodes that leave the contract, in order. -/
  exits : Array Nat

namespace IndexedGraph

/-- The number of nodes. -/
def size (t : IndexedGraph) : Nat :=
  t.graph.size

/-- The node at an offset. -/
def nodeAt? (t : IndexedGraph) (offset : Nat) : Option Nat :=
  t.positions[offset]?

/-- Whether a node is one of the exits, which are searched by halving. -/
def isExit (t : IndexedGraph) (id : Nat) : Bool :=
  (Search.position? t.exits (fun exit => exit) id).isSome

/-- The positions of the instructions that leave the contract. -/
def exitsOf (instructions : Array Instruction) : Array Nat :=
  (Array.range instructions.size).filter fun id =>
    (instructions[id]?).any (·.opcode.isTerminal)

/-- **The graph of a list of instructions**, with its tables. -/
def build (instructions : Array Instruction) : Except Error IndexedGraph := do
  let graph ← Graph.build instructions
  return { graph
           instructions
           positions := CodeIndex.lastPositions instructions
           entry := 0
           exits := exitsOf instructions }

/-- The graph with one slot of a node changed, which concerns no table. -/
def setEdge (t : IndexedGraph) (source : Nat) (kind : EdgeKind) (target : Option Nat) :
    Except Error IndexedGraph := do
  return { t with graph := ← t.graph.setEdge source kind target }

/-- The graph with the marked nodes only.  Nodes and instructions are picked out, the entry and the
exits are given their new numbers, and the table of offsets is made anew. -/
def keep (t : IndexedGraph) (marks : Array Bool) : IndexedGraph :=
  let numbers := Graph.renumbering marks
  let graph : Graph := ⟨(keepMarked t.graph.nodes marks).map (Graph.renumber numbers)⟩
  { graph
    instructions := keepMarked t.instructions marks
    positions := CodeIndex.lastPositions graph.instructions
    entry := ((numbers[t.entry]?).join).getD 0
    exits := t.exits.filterMap fun exit => (numbers[exit]?).join }

/-- **The graph without the nodes that its entry does not reach**, and their number.  Where there are
none, nothing is touched. -/
def prune (t : IndexedGraph) : Except Error (IndexedGraph × Nat) := do
  let kept ← t.graph.reachableFrom t.entry
  let removed := kept.count false
  return if removed = 0 then (t, 0) else (t.keep kept, removed)

end IndexedGraph

/-- A change to a graph. -/
inductive Edit where
  /-- A slot of a node is overwritten. -/
  | setEdge (source : Nat) (kind : EdgeKind) (target : Option Nat)
  /-- Dead code is removed. -/
  | prune
deriving DecidableEq, Repr

/-- A graph after a change. -/
def IndexedGraph.edit (t : IndexedGraph) : Edit → Except Error IndexedGraph
  | .setEdge source kind target => t.setEdge source kind target
  | .prune => do return (← t.prune).1

end BytecodeFlow
