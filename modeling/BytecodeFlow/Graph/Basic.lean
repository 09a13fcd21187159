import BytecodeFlow.Disassembly.Strategy

/-!
# Control-flow graphs

A control-flow graph has one node for every instruction, numbered in the order of the code.  A
node has three slots for edges to other nodes, so cycles are plain data.

* `EdgeKind` — the three slots, in the order in which searches try them: the instruction that
  follows in the code, the target of a jump, and the instruction after a call.
* `Node`, `Graph` — the graph, whose entry is node zero and whose exits are the nodes that leave
  the contract.
* `Graph.successors`, `predecessors`, `edges` — its edges from one side or the other.
* `Graph.setEdge` — a graph with one slot changed.  The new target is not looked at, so a slot may
  name a node that does not exist; `Graph.Closed` says that none does.
* `Graph.wrapped` — the graph as the passes over all of its edges see it, with node numbers of 32
  bits.
* `Graph.build` — the graph of a list of instructions.
-/

namespace BytecodeFlow

/-! ## Nodes -/

/-- One of the three edge slots of a node. -/
inductive EdgeKind where
  /-- To the instruction that follows in the code. -/
  | next
  /-- To the target of a jump. -/
  | branch
  /-- To the instruction at which control resumes after a call. -/
  | callContinuation
deriving DecidableEq, Repr

namespace EdgeKind

/-- The slots in the order in which they are searched. -/
def all : List EdgeKind := [.next, .branch, .callContinuation]

/-- The place of a slot among the slots. -/
def place (kind : EdgeKind) : Nat :=
  all.idxOf kind

/-- The name of a slot. -/
def name : EdgeKind → String
  | .next => "next"
  | .branch => "branch"
  | .callContinuation => "call_continuation"

/-- The slots by their names. -/
def byName : List (String × EdgeKind) :=
  all.map fun kind => (kind.name, kind)

end EdgeKind

/-- An instruction with its edges. -/
structure Node where
  instruction : Instruction
  next : Option Nat
  branch : Option Nat
  callContinuation : Option Nat
deriving DecidableEq, Repr

namespace Node

/-- The position of the instruction in the code. -/
def offset (node : Node) : Nat :=
  node.instruction.offset

/-- The node that a slot leads to. -/
def edge (node : Node) : EdgeKind → Option Nat
  | .next => node.next
  | .branch => node.branch
  | .callContinuation => node.callContinuation

/-- A node with one slot changed. -/
def setEdge (node : Node) (kind : EdgeKind) (target : Option Nat) : Node :=
  match kind with
  | .next => { node with next := target }
  | .branch => { node with branch := target }
  | .callContinuation => { node with callContinuation := target }

/-- A node with a function applied to the nodes that its slots lead to. -/
def mapTargets (f : Nat → Nat) (node : Node) : Node :=
  { node with
    next := node.next.map f
    branch := node.branch.map f
    callContinuation := node.callContinuation.map f }

/-- The slots that are in use, in order, with the nodes they lead to. -/
def edges (node : Node) : List (EdgeKind × Nat) :=
  EdgeKind.all.filterMap fun kind => (node.edge kind).map fun target => (kind, target)

/-- The nodes that the slots lead to, in order.  A node that two slots lead to occurs twice. -/
def targets (node : Node) : List Nat :=
  EdgeKind.all.filterMap node.edge

/-- There are no more edges than slots. -/
theorem length_targets_le (node : Node) : node.targets.length ≤ 3 :=
  List.length_filterMap_le _ _

end Node

/-! ## Graphs -/

/-- An edge of a graph. -/
structure Edge where
  source : Nat
  kind : EdgeKind
  target : Nat
deriving DecidableEq, Repr

/-- A control-flow graph: its nodes in the order of the code. -/
structure Graph where
  nodes : Array Node
deriving DecidableEq, Repr

namespace Graph

/-- The number of nodes. -/
def size (g : Graph) : Nat :=
  g.nodes.size

/-- The node at which execution starts: the first one. -/
def entry (_g : Graph) : Nat := 0

/-- The node with a given number, or the complaint that there is none. -/
def node (g : Graph) (id : Nat) : Except Error Node :=
  match g.nodes[id]? with
  | some node => .ok node
  | none => .error (.missingNode id)

/-- The instruction of a node. -/
def instruction? (g : Graph) (id : Nat) : Option Instruction :=
  (g.nodes[id]?).map (·.instruction)

/-- The offset of a node, or the complaint that there is no such node. -/
def offset (g : Graph) (id : Nat) : Except Error Nat := do
  return (← g.node id).offset

/-- The offset of a node, and zero for a number that names none. -/
def offsetD (g : Graph) (id : Nat) : Nat :=
  ((g.nodes[id]?).map Node.offset).getD 0

/-- The instructions of all nodes, in order. -/
def instructions (g : Graph) : Array Instruction :=
  g.nodes.map (·.instruction)

/-- The node at an offset, in a graph whose offsets ascend. -/
def nodeAt? (g : Graph) (offset : Nat) : Option Nat :=
  Search.position? g.nodes Node.offset offset

/-- Whether a node leaves the contract. -/
def isExit (g : Graph) (id : Nat) : Bool :=
  (g.instruction? id).any (·.opcode.isTerminal)

/-- The numbers of all nodes, in order. -/
def ids (g : Graph) : List Nat :=
  List.range g.size

/-- The nodes that leave the contract, in order. -/
def exits (g : Graph) : List Nat :=
  g.ids.filter g.isExit

/-- The nodes that the edges of a node lead to, in the order of its slots. -/
def successors (g : Graph) (id : Nat) : List Nat :=
  match g.nodes[id]? with
  | some node => node.targets
  | none => []

/-- A node has three successors at most. -/
theorem length_successors_le (g : Graph) (id : Nat) : (g.successors id).length ≤ 3 := by
  unfold successors
  split
  · exact Node.length_targets_le _
  · exact Nat.zero_le _

/-- All edges, by their source and then in the order of its slots. -/
def edges (g : Graph) : List Edge :=
  g.nodes.toList.zipIdx.flatMap fun entry =>
    entry.1.edges.map fun edge => ⟨entry.2, edge.1, edge.2⟩

/-- The sources of the edges that lead to a node, in order and once for every edge. -/
def predecessors (g : Graph) (id : Nat) : List Nat :=
  (g.edges.filter fun edge => edge.target = id).map (·.source)

/-- Whether every edge leads to a node of the graph. -/
def Closed (g : Graph) : Prop :=
  ∀ node ∈ g.nodes, ∀ target ∈ node.targets, target < g.size

/-- The first edge that leads nowhere, as a complaint. -/
def checkEdges (g : Graph) : Except Error Unit :=
  match g.edges.find? fun edge => g.size ≤ edge.target with
  | some edge => .error (.missingNode edge.target)
  | none => .ok ()

/-- Node numbers that name no node are cut to 32 bits: they are taken modulo `2 ^ 32`. -/
def numberBound : Nat := 0x100000000

/-- The node that a number stands for when it is cut to 32 bits. -/
def wrap (g : Graph) (id : Nat) : Nat :=
  if id < g.size then id else id % numberBound

/-- **The graph with its node numbers cut to 32 bits**, or the first edge that leads nowhere even
so. -/
def wrapped (g : Graph) : Except Error Graph := do
  let cut : Graph := ⟨g.nodes.map (Node.mapTargets g.wrap)⟩
  cut.checkEdges
  return cut

/-- The graph with one slot of a node changed. -/
def setEdge (g : Graph) (source : Nat) (kind : EdgeKind) (target : Option Nat) :
    Except Error Graph := do
  let node ← g.node source
  return ⟨g.nodes.setIfInBounds source (node.setEdge kind target)⟩

/-! ## Building a graph -/

/-- The first two neighbours of a list of instructions whose offsets do not ascend. -/
def firstDescent? : List Instruction → Option (Instruction × Instruction)
  | a :: b :: rest => if b.offset ≤ a.offset then some (a, b) else firstDescent? (b :: rest)
  | _ => none

/-- The node of the instruction at a position of an ascending list.  The following instruction is
entered whatever the opcode is; a jump whose target is unknown or names no instruction gets no
branch. -/
def nodeOf (instructions : Array Instruction) (position : Nat) (i : Instruction) : Node :=
  let following := if position + 1 < instructions.size then some (position + 1) else none
  { instruction := i
    next := following
    branch :=
      if i.opcode.isJump then
        (i.jumpTarget? (before? instructions position)).bind
          (Search.position? instructions Instruction.offset)
      else none
    callContinuation := if i.opcode.isCall then following else none }

/-- **The graph of a list of instructions**, which has to ascend so that no two instructions share
an offset, and has to hold an instruction for the entry. -/
def build (instructions : Array Instruction) : Except Error Graph :=
  if instructions.isEmpty then .error .noInstructions
  else
    match firstDescent? instructions.toList with
    | some (a, b) => .error (.unorderedInstructions a.offset b.offset)
    | none => .ok ⟨instructions.mapIdx (nodeOf instructions)⟩

/-- The graph of the linear sweep of an image. -/
def ofImage (image : Image) : Except Error Graph := do
  build (← Disassembly.sweep image).instructions

end Graph

end BytecodeFlow
