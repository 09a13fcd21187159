import BytecodeFlow.Graph.PostOrder

/-!
# Immediate dominators

A node dominates another one if every way from the root to the other one leads through it.  The closest
of the nodes that dominate a node, itself apart, is its immediate dominator.  These are found by going
through the nodes in reverse post order again and again, until a round changes nothing.

* `Links` — for each node the closest dominator found so far.  A link leads toward the root, from a node
  with a link to a node with a link, so that ways along the links end at the root.
* `Links.meet` — where the ways from two nodes meet.
* `Links.visit`, `round`, `settle` — a node is linked to where the ways from its predecessors meet; one
  round does so for every node; the rounds go on until one changes nothing.
* `Dominators` — the result: the root, and the immediate dominator of every node that it reaches.  The
  root has itself.
* `Dominators.immediate?`, `dominators?` — the immediate dominator of a node, and all of its dominators
  as they follow one another.
-/

namespace BytecodeFlow

/-- **Closest dominators as far as they are known**, with the root linked to itself. -/
@[ext] structure Links (o : Numbering) where
  idoms : Array (Option Nat)
  root_idom : (idoms[o.root]?).join = some o.root
  /-- Every other link leads to a node in an earlier place, and from there on. -/
  toward : ∀ id idom, (idoms[id]?).join = some idom → id ≠ o.root →
    o.place idom < o.place id ∧ ((idoms[idom]?).join).isSome

namespace Links

variable {o : Numbering}

/-- The node that a node is linked to. -/
def idom? (links : Links o) (id : Nat) : Option Nat :=
  (links.idoms[id]?).join

/-- The nodes that have a link. -/
def Linked (links : Links o) : Type :=
  { id : Nat // (links.idom? id).isSome }

/-- The links before the first round: the root alone has one. -/
def single (o : Numbering) (size : Nat) (h : o.root < size) : Links o where
  idoms := (Array.replicate size none).set o.root (some o.root) (by simpa using h)
  root_idom := by simp
  toward := by
    intro id idom hidom hne
    have hnone : (Array.replicate size (none : Option Nat))[id]?.join = none := by
      rw [Array.getElem?_replicate]
      split <;> rfl
    rw [Array.getElem?_set_ne _ (Ne.symm hne), hnone] at hidom
    cases hidom

/-- One step along the links. -/
def step (links : Links o) (a : links.Linked) : links.Linked :=
  ⟨(links.idom? a.val).get a.property, by
    by_cases hroot : a.val = o.root
    · have hself : links.idom? a.val = some o.root := by rw [hroot]; exact links.root_idom
      have : links.idom? o.root = some o.root := links.root_idom
      simp [hself, this]
    · exact (links.toward a.val _ (Option.some_get a.property).symm hroot).2⟩

theorem place_step_lt (links : Links o) (a : links.Linked) (h : a.val ≠ o.root) :
    o.place (links.step a).val < o.place a.val :=
  (links.toward a.val _ (Option.some_get a.property).symm h).1

/-- **Where the ways from two nodes meet.**  The way that is in the later place goes on. -/
def meet (links : Links o) (a b : links.Linked) : links.Linked :=
  if _ : o.place a.val < o.place b.val then links.meet a (links.step b)
  else if _ : o.place b.val < o.place a.val then links.meet (links.step a) b
  else a
termination_by o.place a.val + o.place b.val
decreasing_by
  · have := links.place_step_lt b (Numbering.ne_root_of_place_lt ‹_›)
    omega
  · have := links.place_step_lt a (Numbering.ne_root_of_place_lt ‹_›)
    omega

theorem join_setIfInBounds (idoms : Array (Option Nat)) (id idom a : Nat) :
    ((idoms.setIfInBounds id (some idom))[a]?).join
      = if a = id ∧ id < idoms.size then some idom else (idoms[a]?).join := by
  rw [Array.getElem?_setIfInBounds]
  by_cases ha : id = a
  · subst ha
    by_cases hlt : id < idoms.size <;> simp [hlt]
  · rw [if_neg ha, if_neg fun h => ha h.1.symm]

/-- The links with one node linked to another one. -/
def set (links : Links o) (id : Nat) (idom : links.Linked) (h : o.place idom.val < o.place id) :
    Links o where
  idoms := links.idoms.setIfInBounds id (some idom.val)
  root_idom := by
    rw [join_setIfInBounds, if_neg fun hid => Numbering.ne_root_of_place_lt h hid.1.symm]
    exact links.root_idom
  toward := by
    intro a b hab hne
    rw [join_setIfInBounds] at hab
    have hold : o.place b < o.place a ∧ (links.idom? b).isSome := by
      split at hab
      · rename_i ha
        obtain rfl := Option.some.inj hab
        exact ⟨ha.1 ▸ h, idom.property⟩
      · exact links.toward a b hab hne
    refine ⟨hold.1, ?_⟩
    rw [join_setIfInBounds]
    split
    · rfl
    · exact hold.2

/-- A node as one that has a link. -/
def linked? (links : Links o) (id : Nat) : Option links.Linked :=
  if h : (links.idom? id).isSome then some ⟨id, h⟩ else none

/-- Where the ways from the predecessors of a node meet, of those which have a link. -/
def meeting? (preds : Nat → List Nat) (links : Links o) (id : Nat) : Option links.Linked :=
  match (preds id).filterMap links.linked? with
  | [] => none
  | first :: others => some (others.foldl links.meet first)

/-- **A node is linked to where the ways from its predecessors meet.**  Some predecessor stands before the
node and has a link, and so the meeting place is there and stands before the node. -/
def visit (preds : Nat → List Nat) (links : Links o) (id : Nat) : Links o :=
  match links.meeting? preds id with
  | none => links
  | some idom => if h : o.place idom.val < o.place id then links.set id idom h else links

/-- One round through the nodes, the root apart. -/
def round (preds : Nat → List Nat) (links : Links o) : Links o :=
  o.others.foldl (visit preds) links

/-- **Rounds until one changes nothing**, or their number is used up. -/
def settle (preds : Nat → List Nat) : (rounds : Nat) → Links o → Links o
  | 0, links => links
  | rounds + 1, links =>
    let next := round preds links
    if next.idoms = links.idoms then links else settle preds rounds next

end Links

/-- The predecessors of each node among some nodes, each of them once. -/
def predecessorTable (size : Nat) (next : Nat → List Nat) (nodes : List Nat) : Array (List Nat) :=
  nodes.foldl
    (fun table node => (next node).foldl (fun table id => table.modify id (List.insert node)) table)
    (Array.replicate size [])

/-- **The immediate dominators of the nodes that a root reaches.** -/
structure Dominators where
  root : Nat
  /-- The immediate dominator of each node that the root reaches. -/
  idoms : Array (Option Nat)
  /-- The ways along the immediate dominators end at the root. -/
  wellFounded : WellFounded fun idom id => id ≠ root ∧ (idoms[id]?).join = some idom

namespace Dominators

/-- The immediate dominator of a node.  The root has none. -/
def immediate? (d : Dominators) (id : Nat) : Option Nat :=
  if id = d.root then none else (d.idoms[id]?).join

theorem immediate?_eq_some {d : Dominators} {id idom : Nat} (h : d.immediate? id = some idom) :
    id ≠ d.root ∧ (d.idoms[id]?).join = some idom := by
  unfold immediate? at h
  split at h
  · cases h
  · exact ⟨‹_›, h⟩

/-- **The way from a node along the immediate dominators**, up to the root. -/
def chain (d : Dominators) (id : Nat) : List Nat :=
  match h : d.immediate? id with
  | none => [id]
  | some idom =>
    have := immediate?_eq_some h
    id :: d.chain idom
termination_by d.wellFounded.wrap id

/-- All nodes that dominate a node, itself first, where the root reaches the node. -/
def dominators? (d : Dominators) (id : Nat) : Option (List Nat) :=
  if ((d.idoms[id]?).join).isSome then some (d.chain id) else none

/-- The dominators that links lead to. -/
def ofLinks {o : Numbering} (links : Links o) : Dominators where
  root := o.root
  idoms := links.idoms
  wellFounded :=
    Subrelation.wf (fun h => (links.toward _ _ h.2 h.1).1) (InvImage.wf o.place Nat.lt_wfRel.wf)

/-- **The immediate dominators of a successor function** on `size` nodes.  As many rounds as there are
nodes are enough. -/
def compute (size : Nat) (next : Nat → List Nat) (root : Nat) : Except Error Dominators :=
  if h : root < size then do
    let order ← reversePostOrder size next root
    let table := predecessorTable size next order
    let o := Numbering.ofList size root order.tail
    let links := (Links.single o size h).settle (fun id => table[id]?.getD []) order.length
    return ofLinks links
  else .error (.missingNode root)

end Dominators

end BytecodeFlow
