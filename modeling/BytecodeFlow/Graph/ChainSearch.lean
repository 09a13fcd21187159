import BytecodeFlow.Graph.Loop

/-!
# One search for the ways of all loops

`Graph.chain?` follows the code from the header of a loop to its tail.  A search for all loops of a graph
asks for many such ways, and goes backwards from the tail, with marks that are set up once for the graph.
Only the marks that a search has touched are taken off again behind it.

* `Attempt` — a computation with a loop that has no bound: it may never end.
* `ChainSearch` — the marks, and the nodes just before each node in the code.
* `ChainSearch.find` — the way from a header to a tail, and the search as it is left behind.
* `Survey`, `Graph.surveyLoops` — the search for loops of `Graph.loops` with one search for all ways.
-/

namespace BytecodeFlow

/-- **A computation that may fail at a node that does not exist, or never end.** -/
abbrev Attempt (α : Type) : Type :=
  ExceptT Error Option α

/-- The computation that never ends.  It has no value, not even a failure. -/
def Attempt.endless {α : Type} : Attempt α :=
  ExceptT.mk none

/-- A search for ways through the code that can be used again and again. -/
structure ChainSearch where
  /-- The nodes that each node follows in the code, in order. -/
  nextPreds : Array (Array Nat)
  /-- For a node that has been met, the node one step closer to the tail. -/
  cameFrom : Array (Option Nat)
  /-- The nodes that have been met. -/
  seen : Array Bool
  /-- The nodes whose marks have been changed, in order. -/
  touched : Array Nat
  /-- The nodes that have been met and not been left, in order. -/
  queue : List Nat
deriving DecidableEq, Repr

namespace ChainSearch

/-- A table of the nodes before each node, with one more node entered. -/
def enter (g : Graph) (nextPreds : Array (Array Nat)) (id : Nat) : Except Error (Array (Array Nat)) :=
  match g.following? id with
  | none => .ok nextPreds
  | some next =>
    if next < nextPreds.size then .ok (nextPreds.modify next (·.push id))
    else .error (.missingNode next)

/-- **The search of a graph**, with no marks. -/
def ofGraph (g : Graph) : Except Error ChainSearch := do
  let nextPreds ← g.ids.foldlM (enter g) (Array.replicate g.size #[])
  return { nextPreds
           cameFrom := Array.replicate g.size none
           seen := Array.replicate g.size false
           touched := #[]
           queue := [] }

/-- The search having met a node, from the one that it follows to. -/
def mark (s : ChainSearch) (id : Nat) (source : Option Nat) : ChainSearch :=
  { s with
    seen := s.seen.setIfInBounds id true
    cameFrom := s.cameFrom.setIfInBounds id source
    touched := s.touched.push id }

/-- The search with a node behind all others that are to be left. -/
def enqueue (s : ChainSearch) (id : Nat) : ChainSearch :=
  { s with queue := s.queue ++ [id] }

/-- The search having tried the nodes before `current`, and whether one of them is the header.  The header is
the last that is tried. -/
def visit (header current : Nat) (s : ChainSearch) : (preds : List Nat) → Except Error (Bool × ChainSearch)
  | [] => .ok (false, s)
  | pred :: preds =>
    match s.seen[pred]? with
    | none => .error (.missingNode pred)
    | some true => visit header current s preds
    | some false =>
      if pred = header then .ok (true, s.mark pred (some current))
      else visit header current ((s.mark pred (some current)).enqueue pred) preds

/-- The number of nodes that can still be taken from the queue. -/
def work (s : ChainSearch) : Nat :=
  s.seen.count false + s.queue.length

theorem work_mark {s : ChainSearch} {id : Nat} (hid : s.seen[id]? = some false) (source : Option Nat) :
    (s.mark id source).work + 1 = s.work := by
  obtain ⟨hlt, hold⟩ := Array.getElem?_eq_some_iff.mp hid
  have hcount := Marks.count_set_add_one hlt hold (by decide : true ≠ false)
  simp only [work, mark, Array.setIfInBounds, hlt, dif_pos]
  omega

theorem work_enqueue (s : ChainSearch) (id : Nat) : (s.enqueue id).work = s.work + 1 := by
  simp [work, enqueue, Nat.add_assoc]

/-- **Trying nodes adds no work**: a node comes into the queue only when it is first met. -/
theorem work_visit_le {header current : Nat} {s s' : ChainSearch} {preds : List Nat} {found : Bool}
    (h : visit header current s preds = .ok (found, s')) : s'.work ≤ s.work := by
  fun_induction visit header current s preds with
  | case1 s => cases h; exact Nat.le_refl _
  | case2 => cases h
  | case3 s pred preds _ ih => exact ih h
  | case4 s preds hseen =>
      cases h
      have := work_mark hseen (some current)
      omega
  | case5 s pred preds hseen _ ih =>
      have := work_mark hseen (some current)
      have := work_enqueue (s.mark pred (some current)) pred
      have := ih h
      omega

theorem work_visit_lt {header current : Nat} {s s' : ChainSearch} {queue preds : List Nat} {found : Bool}
    (hqueue : s.queue = current :: queue)
    (h : visit header current { s with queue } preds = .ok (found, s')) : s'.work < s.work := by
  have hle := work_visit_le h
  simp only [work, hqueue, List.length_cons] at hle ⊢
  omega

/-- **The search backwards**, from the nodes of the queue until the header is met or no node is left. -/
def search (header : Nat) (s : ChainSearch) : Except Error (Bool × ChainSearch) :=
  match hqueue : s.queue with
  | [] => .ok (false, s)
  | current :: queue =>
    match s.nextPreds[current]? with
    | none => .error (.missingNode current)
    | some preds =>
      match hvisit : visit header current { s with queue } preds.toList with
      | .error e => .error e
      | .ok (found, next) =>
        have := work_visit_lt hqueue hvisit
        if found then .ok (true, next) else search header next
termination_by s.work

/-- The nodes that the marks lead to, from a node on until there is no step closer to the tail, if these are
at most `steps` nodes. -/
def followWithin (cameFrom : Array (Option Nat)) : (steps : Nat) → (id : Nat) → Attempt (List Nat)
  | 0, _ => .endless
  | steps + 1, id =>
    match cameFrom[id]? with
    | none => throw (.missingNode id)
    | some none => pure [id]
    | some (some step) => do return id :: (← followWithin cameFrom steps step)

/-- **The way that the marks write down.**  Marks that go on for more steps than there are nodes lead in a
circle, and would be followed for ever. -/
def follow (cameFrom : Array (Option Nat)) (id : Nat) : Attempt (List Nat) :=
  followWithin cameFrom (cameFrom.size + 1) id

/-- The search with the marks taken off that it has touched. -/
def reset (s : ChainSearch) : ChainSearch :=
  { s with
    seen := s.touched.foldl (·.setIfInBounds · false) s.seen
    cameFrom := s.touched.foldl (·.setIfInBounds · none) s.cameFrom
    touched := #[]
    queue := [] }

/-- **The way through the code from a header to a tail**, and the search as it is left behind. -/
def find (s : ChainSearch) (header tail : Nat) : Attempt (Option (List Nat) × ChainSearch) :=
  if header = tail then pure (some [tail], s)
  else if tail < s.seen.size then do
    let (found, s) ← search header ((s.mark tail none).enqueue tail)
    let chain ← if found then some <$> follow s.cameFrom header else pure none
    return (chain, s.reset)
  else throw (.missingNode tail)

end ChainSearch

/-! ## The loops of a graph -/

/-- What the search for loops has found so far, and the search that it uses for their ways. -/
structure Survey where
  scan : Scan
  chains : ChainSearch

namespace Survey

/-- The survey having asked for the way of an edge back to `header`. -/
def close (g : Graph) (s : Survey) (header : Nat) (body? : Option (List Nat)) (chains : ChainSearch) :
    Survey :=
  match body? with
  | some body => ⟨{ s.scan with loops := s.scan.loops.push (g.loopOf header body) }, chains⟩
  | none => ⟨s.scan, chains⟩

theorem visits_close (g : Graph) (s : Survey) (header : Nat) (body? : Option (List Nat))
    (chains : ChainSearch) : (s.close g header body? chains).scan.visits = s.scan.visits := by
  cases body? <;> rfl

/-- **The survey from a stack of frames.** -/
def run (g : Graph) (s : Survey) (frames : List Frame) : Attempt Survey :=
  match frames with
  | [] => pure s
  | ⟨node, []⟩ :: rest => run g { s with scan := s.scan.leave node } rest
  | ⟨node, id :: left⟩ :: rest =>
    if h : id < s.scan.visits.size then
      match hv : s.scan.visits[id] with
      | .fresh => run g { s with scan := s.scan.enter id } (⟨id, g.successors id⟩ :: ⟨node, left⟩ :: rest)
      | .active => do
        let (body?, chains) ← s.chains.find id node
        run g (s.close g id body? chains) (⟨node, left⟩ :: rest)
      | .done => run g s (⟨node, left⟩ :: rest)
    else throw (.missingNode id)
termination_by 5 * s.scan.visits.count .fresh + Frame.work frames
decreasing_by
  · have := s.scan.count_leave_le node
    simp only [Frame.work, List.length_nil]
    omega
  · have := Scan.count_enter h hv
    have := g.length_successors_le id
    simp only [Frame.work, List.length_cons]
    omega
  · simp only [Frame.work, List.length_cons, visits_close]
    omega
  · simp only [Frame.work, List.length_cons]
    omega

/-- The survey from a root, if it has not been visited. -/
def fromRoot (g : Graph) (s : Survey) (root : Nat) : Attempt Survey :=
  if s.scan.visits[root]? = some .fresh then
    run g { s with scan := s.scan.enter root } [⟨root, g.successors root⟩]
  else pure s

end Survey

/-- **The loops of a graph**, found with one search for all ways. -/
def Graph.surveyLoops (g : Graph) : Attempt (List Loop) := do
  let chains ← ChainSearch.ofGraph g
  let start : Survey := ⟨⟨Array.replicate g.size .fresh, #[]⟩, chains⟩
  let found ← (g.entry :: g.ids).foldlM (Survey.fromRoot g) start
  return found.scan.loops.toList

end BytecodeFlow
