import BytecodeFlow.Graph.Basic
import BytecodeFlow.Graph.Frame
import BytecodeFlow.Marks
import Std.Data.HashSet

/-!
# Loops

A loop is found by an edge from a node back to one that the search is still inside of, provided
that the second leads to the first through the code, by the edges to the following instruction
alone.  So every loop reported is a cycle; a cycle that is closed by jumps only is not reported.

* `Loop` — the header, the body from the header to the source of the edge, and what may interest
  a reader: the way out, the targets of the jumps and the literals of the additions in the body.
* `Graph.chain?` — the way through the code from one node to another.
* `scan` — the search from one root.
* `Graph.loops` — the loops found from the entry, and then from every node not visited before, so
  that code which the entry does not reach is looked at as well.
-/

namespace BytecodeFlow

/-- A loop of a control-flow graph. -/
structure Loop where
  /-- The node that the edge leads back to. -/
  header : Nat
  /-- The first successor of a body node that is not in the body. -/
  exit : Option Nat
  /-- The nodes from the header to the source of the edge, as they follow in the code. -/
  nodes : List Nat
  /-- The known targets of the unconditional jumps in the body. -/
  bounds : List Nat
  /-- The literals that the additions in the body work with, in hexadecimal. -/
  invariants : List String
deriving DecidableEq, Repr

namespace Graph

/-- The node that follows in the code. -/
def following? (g : Graph) (id : Nat) : Option Nat :=
  (g.nodes[id]?).bind (·.next)

/-- The nodes from `header` to the first occurrence of `tail`, as they follow in the code, if that
takes at most `steps` nodes. -/
def chainWithin (g : Graph) : (steps : Nat) → (header tail : Nat) → Option (List Nat)
  | 0, _, _ => none
  | steps + 1, header, tail =>
    if header = tail then some [tail]
    else (g.following? header).bind fun next =>
      (g.chainWithin steps next tail).map (header :: ·)

/-- **The way through the code from one node to another.**  A way without repetition has no more
nodes than the graph. -/
def chain? (g : Graph) (header tail : Nat) : Option (List Nat) :=
  g.chainWithin g.size header tail

/-- The first successor of a body node, in the order of the body, that is not in the body. -/
def wayOut? (g : Graph) (body : List Nat) : Option Nat :=
  let inside := Std.HashSet.ofList body
  (body.flatMap g.successors).find? fun id => !inside.contains id

/-- The instruction of the node numbered just before a node. -/
def instructionBefore? (g : Graph) : (id : Nat) → Option Instruction
  | 0 => none
  | id + 1 => g.instruction? id

/-- The target of a node that is an unconditional jump. -/
def bound? (g : Graph) (id : Nat) : Option Nat :=
  (g.instruction? id).bind fun i =>
    if i.opcode = Opcode.jump then i.jumpTarget? (g.instructionBefore? id) else none

/-- The literal of a node that is an addition. -/
def invariant? (g : Graph) (id : Nat) : Option String :=
  (g.instruction? id).bind fun i =>
    if i.opcode = Opcode.add then
      (i.literal? (g.instructionBefore? id)).map fun literal => "0x" ++ Hex.encode literal
    else none

/-- The loop with a given body. -/
def loopOf (g : Graph) (header : Nat) (body : List Nat) : Loop where
  header := header
  exit := g.wayOut? body
  nodes := body
  bounds := body.filterMap g.bound?
  invariants := body.filterMap g.invariant?

end Graph

/-! ## The search -/

/-- Where the search stands with a node. -/
inductive Visit where
  /-- Not visited. -/
  | fresh
  /-- Visited and not left. -/
  | active
  /-- Left. -/
  | done
deriving DecidableEq, Repr

/-- What the search has found so far. -/
structure Scan where
  visits : Array Visit
  loops : Array Loop

/-- The search having entered a node. -/
def Scan.enter (scan : Scan) (id : Nat) : Scan :=
  { scan with visits := scan.visits.setIfInBounds id .active }

/-- The search having left a node. -/
def Scan.leave (scan : Scan) (id : Nat) : Scan :=
  { scan with visits := scan.visits.setIfInBounds id .done }

/-- The search having met an edge from `tail` back to `header`. -/
def Scan.close (g : Graph) (scan : Scan) (header tail : Nat) : Scan :=
  match g.chain? header tail with
  | some body => { scan with loops := scan.loops.push (g.loopOf header body) }
  | none => scan

/-- Meeting an edge changes no visit. -/
theorem Scan.visits_close (g : Graph) (scan : Scan) (header tail : Nat) :
    (scan.close g header tail).visits = scan.visits := by
  unfold Scan.close
  split <;> rfl

/-- Entering a node leaves one less that is not visited. -/
theorem Scan.count_enter {scan : Scan} {id : Nat} (h : id < scan.visits.size)
    (hv : scan.visits[id] = .fresh) :
    (scan.enter id).visits.count .fresh + 1 = scan.visits.count .fresh := by
  simpa [Scan.enter, Array.setIfInBounds, h] using
    Marks.count_set_add_one h hv (by decide : Visit.active ≠ Visit.fresh)

theorem Scan.count_leave_le (scan : Scan) (id : Nat) :
    (scan.leave id).visits.count .fresh ≤ scan.visits.count .fresh :=
  Marks.count_setIfInBounds_le (by decide)

/-- **The search from a stack of frames.** -/
def Scan.run (g : Graph) (scan : Scan) (frames : List Frame) : Except Error Scan :=
  match frames with
  | [] => .ok scan
  | ⟨node, []⟩ :: rest => Scan.run g (scan.leave node) rest
  | ⟨node, id :: left⟩ :: rest =>
    if h : id < scan.visits.size then
      match hv : scan.visits[id] with
      | .fresh => Scan.run g (scan.enter id) (⟨id, g.successors id⟩ :: ⟨node, left⟩ :: rest)
      | .active => Scan.run g (scan.close g id node) (⟨node, left⟩ :: rest)
      | .done => Scan.run g scan (⟨node, left⟩ :: rest)
    else .error (.missingNode id)
termination_by 5 * scan.visits.count .fresh + Frame.work frames
decreasing_by
  · have := scan.count_leave_le node
    simp only [Frame.work, List.length_nil]
    omega
  · have := Scan.count_enter h hv
    have := g.length_successors_le id
    simp only [Frame.work, List.length_cons]
    omega
  · simp only [Frame.work, List.length_cons, Scan.visits_close]
    omega
  · simp only [Frame.work, List.length_cons]
    omega

/-- The search from a root, if it has not been visited. -/
def Scan.fromRoot (g : Graph) (scan : Scan) (root : Nat) : Except Error Scan :=
  if scan.visits[root]? = some .fresh then
    Scan.run g (scan.enter root) [⟨root, g.successors root⟩]
  else .ok scan

/-- **The loops of a graph**, in the order in which the search finds them. -/
def Graph.loops (g : Graph) : Except Error (List Loop) := do
  let start : Scan := ⟨Array.replicate g.size .fresh, #[]⟩
  let scan ← (g.entry :: g.ids).foldlM (Scan.fromRoot g) start
  return scan.loops.toList

end BytecodeFlow
