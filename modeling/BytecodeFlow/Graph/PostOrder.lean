import BytecodeFlow.Error
import BytecodeFlow.Graph.Frame
import BytecodeFlow.Marks

/-!
# Reverse post order

A depth-first search leaves a node when it has entered all that the node leads to.  Taken from the node
left last to the node left first, the nodes stand in reverse post order: the root is the first of them,
and every other one has some node before it that leads to it.

* `leaveAll` — the search from a stack of frames, which collects the nodes as it leaves them.
* `reversePostOrder` — the search from a root.
* `Numbering` — the root and the other nodes in this order, with their places in it.
-/

namespace BytecodeFlow

/-- **The search from a stack of frames.**  A node that is left is put in front of those left before. -/
def leaveAll (next : Nat → List Nat) (seen : Array Bool) (order : List Nat) (frames : List Frame) :
    Except Error (List Nat) :=
  match frames with
  | [] => .ok order
  | ⟨node, []⟩ :: rest => leaveAll next seen (node :: order) rest
  | ⟨node, id :: left⟩ :: rest =>
    if h : id < seen.size then
      if seen[id] then leaveAll next seen order (⟨node, left⟩ :: rest)
      else leaveAll next (seen.set id true) order (⟨id, next id⟩ :: ⟨node, left⟩ :: rest)
    else .error (.missingNode id)
termination_by (seen.count false, Frame.work frames)
decreasing_by
  · exact Prod.Lex.right _ (by simp [Frame.work])
  · exact Prod.Lex.right _ (by simp [Frame.work])
  · exact Prod.Lex.left _ _
      (Marks.count_set_lt h (by simpa using ‹¬seen[id] = true›) (by decide))

/-- **The nodes that a root reaches in reverse post order**, among `size` nodes. -/
def reversePostOrder (size : Nat) (next : Nat → List Nat) (root : Nat) : Except Error (List Nat) :=
  leaveAll next ((Array.replicate size false).setIfInBounds root true) [] [⟨root, next root⟩]

/-- The nodes that a root reaches, one after the other. -/
structure Numbering where
  root : Nat
  /-- The other nodes, in order. -/
  others : List Nat
  /-- For each of the other nodes, how many of them stand before it. -/
  positions : Array Nat
deriving DecidableEq, Repr

namespace Numbering

/-- The numbering of the nodes behind a root. -/
def ofList (size root : Nat) (others : List Nat) : Numbering where
  root := root
  others := others
  positions := others.zipIdx.foldl (fun positions entry => positions.setIfInBounds entry.1 entry.2)
    (Array.replicate size 0)

/-- The place of a node: the number of nodes before it. -/
def place (o : Numbering) (id : Nat) : Nat :=
  if id = o.root then 0 else o.positions[id]?.getD 0 + 1

theorem place_root (o : Numbering) : o.place o.root = 0 :=
  if_pos rfl

/-- Only the root has no node before it. -/
theorem ne_root_of_place_lt {o : Numbering} {a b : Nat} (h : o.place a < o.place b) : b ≠ o.root := by
  intro hb
  rw [hb, place_root] at h
  exact Nat.not_lt_zero _ h

end Numbering

end BytecodeFlow
