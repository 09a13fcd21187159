import BytecodeFlow.Graph.Loop

/-!
# Paths from the entry to an exit

A path leads from the entry to the first exit it meets and visits no node twice.  The search tries
the successors of a node in order.  At the header of a loop it also tries the way out of the loop,
so that a body which could only be left by going round again does not hide what comes after it.

* `Limits` — how many paths to record, and how many steps to take.
* `PathSet` — the paths found, and whether a limit cut the search short.
* `Graph.onward` — the nodes that a path may go on to.
* `enumerate` — the search.  It can take exponentially many steps; that it ends at all is seen
  from `weight`, which gives a node on the stack as many steps as could be taken below it.
* `Graph.paths` — the paths of a graph.
-/

namespace BytecodeFlow

/-- Limits on the search; `none` is no limit. -/
structure Limits where
  maxPaths : Option Nat
  maxSteps : Option Nat
deriving DecidableEq, Repr

/-- The search without limits. -/
def Limits.none : Limits := ⟨.none, .none⟩

/-- Whether a step with this number is one too many. -/
def Limits.stepsExceeded (limits : Limits) (step : Nat) : Bool :=
  limits.maxSteps.any (· < step)

/-- Whether no path may be recorded after this many. -/
def Limits.pathsReached (limits : Limits) (count : Nat) : Bool :=
  limits.maxPaths.any (· ≤ count)

/-- The paths found by a search, in the order in which it found them. -/
structure PathSet where
  paths : Array (List Nat)
  /-- Whether a limit cut the search short. -/
  truncated : Bool
deriving DecidableEq, Repr

/-- No paths. -/
def PathSet.empty : PathSet := ⟨#[], false⟩

/-! ## Where a path goes on -/

/-- A list with one more element behind it, unless it has that element. -/
def addNew (list : List Nat) (id : Nat) : List Nat :=
  if list.contains id then list else list ++ [id]

/-- Adding elements one by one makes a list longer by their number at most. -/
theorem length_foldl_addNew_le (ids list : List Nat) :
    (ids.foldl addNew list).length ≤ list.length + ids.length := by
  induction ids generalizing list with
  | nil => simp
  | cons id rest ih =>
    have hstep : (addNew list id).length ≤ list.length + 1 := by
      unfold addNew
      split <;> simp
    have := ih (addNew list id)
    simp only [List.foldl_cons, List.length_cons]
    omega

/-- The ways out of the loops with a given header. -/
def waysOut (loops : List Loop) (header : Nat) : List Nat :=
  (loops.filter fun l => l.header = header).filterMap (·.exit)

/-- There are no more ways out than loops. -/
theorem length_waysOut_le (loops : List Loop) (header : Nat) :
    (waysOut loops header).length ≤ loops.length :=
  Nat.le_trans (List.length_filterMap_le _ _) (List.length_filter_le _ _)

/-- **The nodes that a path may go on to**: the successors, and then the ways out of the loops that
the node heads, where they are not among the nodes named before. -/
def Graph.onward (g : Graph) (loops : List Loop) (id : Nat) : List Nat :=
  (waysOut loops id).foldl addNew (g.successors id)

/-- The nodes to go on to, for every node. -/
def Graph.onwardTable (g : Graph) (loops : List Loop) : Array (List Nat) :=
  (Array.range g.size).map (g.onward loops)

/-- The entry of a node in the table. -/
def step (table : Array (List Nat)) (id : Nat) : List Nat :=
  table[id]?.getD []

/-- A node has three successors and one way out for every loop at most. -/
theorem length_step_onwardTable_le (g : Graph) (loops : List Loop) (id : Nat) :
    (step (g.onwardTable loops) id).length ≤ loops.length + 3 := by
  rcases Nat.lt_or_ge id g.size with h | h
  · have hlen := length_foldl_addNew_le (waysOut loops id) (g.successors id)
    have := length_waysOut_le loops id
    have := g.length_successors_le id
    simp only [step, Graph.onwardTable, Array.getElem?_map, Array.getElem?_range, h, if_true,
      Option.map_some, Option.getD_some, Graph.onward]
    omega
  · simp [step, Graph.onwardTable, Nat.not_lt.mpr h]

/-! ## The search -/

/-- A bound on the steps that trying one node can lead to when `free` nodes are off the path and no
node has more than `width` others to go on to. -/
def fanOut (width : Nat) : (free : Nat) → Nat
  | 0 => 1
  | free + 1 => (width + 2) * fanOut width free

/-- Trying a node is a step. -/
theorem fanOut_pos (width free : Nat) : 0 < fanOut width free := by
  induction free with
  | zero => exact Nat.one_pos
  | succ free ih => exact Nat.mul_pos (by omega) ih

/-- With more nodes off the path there may be more steps. -/
theorem fanOut_mono (width : Nat) {free free' : Nat} (h : free ≤ free') :
    fanOut width free ≤ fanOut width free' := by
  induction h with
  | refl => exact Nat.le_refl _
  | step _ ih => exact Nat.le_trans ih (Nat.le_mul_of_pos_left _ (by omega))

/-- A bound on the steps that a stack of frames can take when `free` nodes are off the path. -/
def weight (width free : Nat) : List Frame → Nat
  | [] => 0
  | frame :: rest => frame.left.length * fanOut width free + 1 + weight width (free + 1) rest

/-- With more nodes off the path a stack may take more steps. -/
theorem weight_mono (width : Nat) {free free' : Nat} (h : free ≤ free') (frames : List Frame) :
    weight width free frames ≤ weight width free' frames := by
  induction frames generalizing free free' with
  | nil => exact Nat.le_refl _
  | cons frame rest ih =>
    have hmul := Nat.mul_le_mul_left frame.left.length (fanOut_mono width h)
    have htail : weight width (free + 1) rest ≤ weight width (free' + 1) rest :=
      ih (Nat.succ_le_succ h)
    simp only [weight]
    omega

/-- Dropping a successor takes weight off a stack. -/
theorem weight_drop_lt (width free node id : Nat) (left : List Nat) (rest : List Frame) :
    weight width free (⟨node, left⟩ :: rest) < weight width free (⟨node, id :: left⟩ :: rest) := by
  have hpos := fanOut_pos width free
  simp only [weight, List.length_cons, Nat.succ_mul]
  omega

/-- Entering a node takes weight off a stack, because it is no longer off the path. -/
theorem weight_enter_lt {width free : Nat} (node id : Nat) (left next : List Nat)
    (rest : List Frame) (h : next.length ≤ width) :
    weight width free (⟨id, next⟩ :: ⟨node, left⟩ :: rest)
      < weight width (free + 1) (⟨node, id :: left⟩ :: rest) := by
  have hpos := fanOut_pos width free
  have hmul := Nat.mul_le_mul_right (fanOut width free) h
  have hsucc : fanOut width (free + 1) = width * fanOut width free + 2 * fanOut width free := by
    rw [fanOut, Nat.add_mul]
  simp only [weight, List.length_cons, Nat.succ_mul]
  omega

/-- **The search from a stack of frames.**  A step tries one node: it is skipped if it is on the
path, recorded with the path before it if it is an exit, and entered otherwise. -/
def enumerate (limits : Limits) (isExit : Nat → Bool) (table : Array (List Nat)) (width : Nat)
    (hwidth : ∀ id, (step table id).length ≤ width) (onPath : Array Bool) (frames : List Frame)
    (steps : Nat) (found : Array (List Nat)) : Except Error PathSet :=
  match frames with
  | [] => .ok ⟨found, false⟩
  | ⟨node, []⟩ :: rest =>
    enumerate limits isExit table width hwidth (onPath.setIfInBounds node false) rest steps found
  | ⟨node, id :: left⟩ :: rest =>
    if limits.stepsExceeded (steps + 1) then .ok ⟨found, true⟩
    else if h : id < onPath.size then
      if onPath[id] then
        enumerate limits isExit table width hwidth onPath (⟨node, left⟩ :: rest) (steps + 1) found
      else if isExit id then
        if limits.pathsReached found.size then .ok ⟨found, true⟩
        else
          enumerate limits isExit table width hwidth onPath (⟨node, left⟩ :: rest) (steps + 1)
            (found.push (Frame.spine (⟨id, []⟩ :: ⟨node, left⟩ :: rest)))
      else
        enumerate limits isExit table width hwidth (onPath.set id true)
          (⟨id, step table id⟩ :: ⟨node, left⟩ :: rest) (steps + 1) found
    else .error (.missingNode id)
termination_by weight width (onPath.count false) frames
decreasing_by
  · have hcount : (onPath.setIfInBounds node false).count false ≤ onPath.count false + 1 :=
      Marks.count_setIfInBounds_le_add_one
    have := weight_mono width hcount rest
    simp only [weight]
    omega
  · exact weight_drop_lt ..
  · exact weight_drop_lt ..
  · have hfree : onPath[id] = false := by simpa using ‹¬onPath[id] = true›
    rw [← Marks.count_set_add_one h hfree (by decide : true ≠ false)]
    exact weight_enter_lt _ _ _ _ _ (hwidth id)

/-- **The paths of a graph** from its entry to its exits, with the ways out of the given loops as
further steps.  An entry that is an exit is the only path. -/
def Graph.paths (g : Graph) (loops : List Loop) (limits : Limits) : Except Error PathSet :=
  if g.isExit g.entry then
    if limits.pathsReached 0 then .ok ⟨#[], true⟩ else .ok ⟨#[[g.entry]], false⟩
  else
    let table := g.onwardTable loops
    enumerate limits g.isExit table (loops.length + 3) (length_step_onwardTable_le g loops)
      ((Array.replicate g.size false).setIfInBounds g.entry true)
      [⟨g.entry, step table g.entry⟩] 0 #[]

end BytecodeFlow
