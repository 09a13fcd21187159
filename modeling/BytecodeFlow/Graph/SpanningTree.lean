import BytecodeFlow.Graph.Basic
import BytecodeFlow.Marks

/-!
# The spanning tree of a depth-first search

The tree hangs every node that the entry reaches under the node from which a depth-first search
first came to it.

* `SpanningTree` — parents, children and depths by node.
* `SpanningTree.grow` — the search.  The edges that wait to be followed are kept in one list, the
  edges of the node discovered last in front.
* `Graph.spanningTree` — the tree of a graph.
* `SpanningTree.render` — the tree as an indented listing, for which the nodes that wait to be printed are
  kept in one list, the children of the node printed last in front.
-/

namespace BytecodeFlow

/-- The spanning tree of a search from the entry of a graph. -/
structure SpanningTree where
  root : Nat
  /-- The node from which each node was discovered. -/
  parents : Array (Option Nat)
  /-- The nodes discovered from each node, in order. -/
  children : Array (Array Nat)
  /-- The distance of each node from the root, for the nodes in the tree. -/
  depths : Array (Option Nat)
deriving DecidableEq, Repr

namespace SpanningTree

/-- The tree that holds the root only. -/
def single (size root : Nat) : SpanningTree where
  root := root
  parents := Array.replicate size none
  children := Array.replicate size #[]
  depths := (Array.replicate size none).setIfInBounds root (some 0)

/-- The depth of a node, for the nodes in the tree. -/
def depth? (tree : SpanningTree) (id : Nat) : Option Nat :=
  (tree.depths[id]?).join

/-- The tree with one more node, below its parent. -/
def attach (tree : SpanningTree) (parent child : Nat) : SpanningTree where
  root := tree.root
  parents := tree.parents.setIfInBounds child (some parent)
  children := tree.children.modify parent (·.push child)
  depths := tree.depths.setIfInBounds child (some ((tree.depth? parent).getD 0 + 1))

/-- The edges of a node as they wait to be followed. -/
def edgesFrom (g : Graph) (id : Nat) : List (Nat × Nat) :=
  (g.successors id).map fun target => (id, target)

/-- **The search.**  An edge to a node in the tree is skipped; an edge to another node puts it into
the tree and its own edges in front of those that wait. -/
def grow (g : Graph) (tree : SpanningTree) (pending : List (Nat × Nat)) :
    Except Error SpanningTree :=
  match pending with
  | [] => .ok tree
  | (parent, child) :: rest =>
    if h : child < tree.depths.size then
      if tree.depths[child].isSome then grow g tree rest
      else grow g (tree.attach parent child) (edgesFrom g child ++ rest)
    else .error (.missingNode child)
termination_by (tree.depths.count none, pending.length)
decreasing_by
  · exact Prod.Lex.right _ (by simp)
  · refine Prod.Lex.left _ _ ?_
    have hnone : tree.depths[child] = none := by simpa using ‹¬tree.depths[child].isSome = true›
    simpa [attach, Array.setIfInBounds, h] using Marks.count_set_lt h hnone (Option.some_ne_none _)

/-- Whether a node is in the tree. -/
def contains (tree : SpanningTree) (id : Nat) : Bool :=
  (tree.depth? id).isSome

/-- The parent of a node. -/
def parent? (tree : SpanningTree) (id : Nat) : Option Nat :=
  (tree.parents[id]?).join

/-- The children of a node, in order. -/
def childrenOf (tree : SpanningTree) (id : Nat) : Array Nat :=
  tree.children[id]?.getD #[]

/-- The line of a node in the listing. -/
def line (g : Graph) (tree : SpanningTree) (id : Nat) : String :=
  let indent := String.ofList (List.replicate (2 * (tree.depth? id).getD 0) ' ')
  indent ++ ((g.instruction? id).map Instruction.text).getD "" ++ "\n"

/-- The listing from the nodes that wait to be printed, behind what has been printed.  A node makes way for
its children.  At most `lines` nodes are printed. -/
def printFrom (g : Graph) (tree : SpanningTree) : (lines : Nat) → String → List Nat → String
  | _, printed, [] => printed
  | 0, printed, _ => printed
  | lines + 1, printed, id :: waiting =>
    printFrom g tree lines (printed ++ tree.line g id) ((tree.childrenOf id).toList ++ waiting)

/-- **The tree as a listing**: a line for every node, indented by two spaces for every level.  There are no
more lines than nodes. -/
def render (g : Graph) (tree : SpanningTree) : String :=
  if tree.contains tree.root then tree.printFrom g tree.depths.size "" [tree.root] else ""

end SpanningTree

/-- **The spanning tree of a graph**, rooted at its entry. -/
def Graph.spanningTree (g : Graph) : Except Error SpanningTree :=
  SpanningTree.grow g (.single g.size g.entry) (SpanningTree.edgesFrom g g.entry)

end BytecodeFlow
