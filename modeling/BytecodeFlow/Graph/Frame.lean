/-!
# The stack of a depth-first search

A search that has to know when it leaves a node keeps a stack of frames: the nodes on the way from
its root to where it is, each with the successors that it has still to try.
-/

namespace BytecodeFlow

/-- A node on the way to the present one, and the successors of it that are still to be tried. -/
structure Frame where
  node : Nat
  left : List Nat
deriving DecidableEq, Repr

namespace Frame

/-- The number of steps that a stack can take without entering another node: one for every
successor still to be tried, and one to leave each node. -/
def work : List Frame → Nat
  | [] => 0
  | frame :: rest => frame.left.length + 1 + work rest

/-- The path that a stack stands for, from the root of the search on. -/
def spine (frames : List Frame) : List Nat :=
  (frames.map Frame.node).reverse

end Frame

end BytecodeFlow
