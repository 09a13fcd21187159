import BytecodeFlow.Graph.Basic

/-!
# Basic blocks

The nodes are cut into blocks in the order of the code: a block ends behind a node with a branch,
behind a call, and behind an exit.  The partition follows the layout of the code and covers every
node once.
-/

namespace BytecodeFlow

/-- A run of nodes without a branch, call or exit before its last one. -/
structure Block where
  /-- The offset of the first node. -/
  start : Nat
  nodes : List Nat
  /-- The offsets of the successors of the last node, in the order of its slots. -/
  successors : List Nat
deriving DecidableEq, Repr

/-- Cuts a list behind every element for which `ends` holds. -/
def cutBehind {α : Type} (ends : α → Bool) : List α → List (List α)
  | [] => []
  | x :: rest =>
    if ends x then [x] :: cutBehind ends rest
    else
      match cutBehind ends rest with
      | [] => [[x]]
      | group :: groups => (x :: group) :: groups

namespace Graph

/-- Whether a block ends behind a node. -/
def endsBlock (g : Graph) (id : Nat) : Bool :=
  (g.nodes[id]?).any fun node => node.branch.isSome || node.callContinuation.isSome || g.isExit id

/-- The block of a group of nodes. -/
def blockOf (g : Graph) (nodes : List Nat) : Except Error Block := do
  let start ← match nodes.head? with
    | some first => g.offset first
    | none => pure 0
  let targets := match nodes.getLast? with
    | some last => g.successors last
    | none => []
  return ⟨start, nodes, ← targets.mapM g.offset⟩

/-- **The basic blocks of a graph**, in the order of the code. -/
def blocks (g : Graph) : Except Error (List Block) :=
  (cutBehind g.endsBlock g.ids).mapM g.blockOf

end Graph

end BytecodeFlow
