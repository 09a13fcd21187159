import BytecodeFlow.Graph.Basic
import BytecodeFlow.Marks

/-!
# Reachability, and removing what is not reachable

* `spread` — the set of nodes that a search reaches along a successor function, as marks.
* `Graph.reachableFrom`, `isReachable` — that set for the edges of a graph.
* `Graph.prune` — the graph without the nodes that its entry does not reach.  The others keep
  their order and are numbered anew.

A search that meets an edge to a node that does not exist fails; edges that it does not meet do
not matter to it.
-/

namespace BytecodeFlow

/-- **The search.**  Visits the pending nodes one after the other, marks each when it is first
visited, and then has its successors pending. -/
def spread (next : Nat → List Nat) (seen : Array Bool) (pending : List Nat) :
    Except Error (Array Bool) :=
  match pending with
  | [] => .ok seen
  | id :: rest =>
    if h : id < seen.size then
      if seen[id] then spread next seen rest
      else spread next (seen.set id true) (next id ++ rest)
    else .error (.missingNode id)
termination_by (seen.count false, pending.length)
decreasing_by
  · exact Prod.Lex.right _ (by simp)
  · exact Prod.Lex.left _ _
      (Marks.count_set_lt h (by simpa using ‹¬seen[id] = true›) (by decide))

/-- The marks of the nodes that a search from one node reaches among `size` nodes. -/
def reach (size : Nat) (next : Nat → List Nat) (start : Nat) : Except Error (Array Bool) :=
  spread next (Array.replicate size false) [start]

namespace Graph

/-- **The nodes that a node reaches**, itself included, as one mark for every node. -/
def reachableFrom (g : Graph) (start : Nat) : Except Error (Array Bool) :=
  reach g.size g.successors start

/-- Whether a node reaches another one. -/
def isReachable (g : Graph) (source target : Nat) : Except Error Bool := do
  let reached ← g.reachableFrom source
  match reached[target]? with
  | some mark => return mark
  | none => .error (.missingNode target)

/-- The new numbers of the marked nodes, in order; the others get none. -/
def renumbering (kept : Array Bool) : Array (Option Nat) :=
  (kept.foldl
    (fun (numbers, fresh) mark =>
      if mark then (numbers.push (some fresh), fresh + 1) else (numbers.push none, fresh))
    ((#[] : Array (Option Nat)), 0)).1

/-- A node whose edges lead to the new numbers. -/
def renumber (numbers : Array (Option Nat)) (node : Node) : Node :=
  let link (edge : Option Nat) : Option Nat := edge.bind fun target => (numbers[target]?).join
  { node with
    next := link node.next
    branch := link node.branch
    callContinuation := link node.callContinuation }

/-- **The graph without the nodes that its entry does not reach**, and their number. -/
def prune (g : Graph) : Except Error (Graph × Nat) := do
  let kept ← g.reachableFrom g.entry
  let numbers := renumbering kept
  let live := (g.nodes.zip kept).filterMap fun entry =>
    if entry.2 then some (renumber numbers entry.1) else none
  return (⟨live⟩, kept.count false)

end Graph

end BytecodeFlow
