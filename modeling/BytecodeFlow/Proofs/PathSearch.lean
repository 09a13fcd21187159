import Mathlib
import BytecodeFlow.Graph.Path
import BytecodeFlow.Proofs.Edges

/-!
# The search for paths is exact

`Graph.paths` walks through a graph with a stack of frames and a mark for every node on the path.
This file compares it with two descriptions that know neither.

**A plain recursion.**  `search` tries the nodes to go on to from left to right and carries the
trail that leads to where it is.  `tries` is the same recursion with one entry for every node that
is tried, whether or not a path comes of it, so that limits can be told from it: `Limits.cut` goes
through such a list until a limit is reached.

**A predicate.**  `Graph.ExitWalk` says which node sequences are paths, without saying how they are
found.

The stack of frames stands for the tries that are still to come (`remaining`), and every step of the
search takes the first of them (`enumerate_eq`).  The invariant is `OnPath`: the marks are those of
the nodes on the stack.  The two descriptions agree by induction along the recursion (`mem_search`).
-/

namespace BytecodeFlow

/-! ## Where a path goes on -/

/-- The exits that are recorded for the loops with a given header. -/
def recordedExits (loops : List Loop) (header : Nat) : List Nat :=
  loops.filterMap fun l => if l.header = header then l.exit else none

/-- **The nodes to go on to**: the successors, and behind them the distinct exits that are recorded for
the loops that the node heads, as far as they are not successors. -/
def Graph.choices (g : Graph) (loops : List Loop) (id : Nat) : List Nat :=
  g.successors id ++ ((recordedExits loops id).filter fun exit => exit ∉ g.successors id).eraseDups

lemma mem_recordedExits {loops : List Loop} {header exit : Nat} :
    exit ∈ recordedExits loops header ↔ ∃ l ∈ loops, l.header = header ∧ l.exit = some exit := by
  simp only [recordedExits, List.mem_filterMap, Option.ite_none_right_eq_some]

/-- The search looks for the loops first and for their exits then. -/
lemma waysOut_eq_recordedExits (loops : List Loop) (header : Nat) :
    waysOut loops header = recordedExits loops header := by
  simp only [waysOut, recordedExits, List.filterMap_filter, decide_eq_true_eq]

/-- Adding elements one by one adds the distinct ones that are new. -/
lemma foldl_addNew_eq (ids : List Nat) :
    ∀ list : List Nat, ids.foldl addNew list = list ++ (ids.filter fun id => id ∉ list).eraseDups := by
  induction ids with
  | nil => intro list; simp
  | cons id rest ih =>
      intro list
      rw [List.foldl_cons, ih]
      by_cases hid : id ∈ list
      · simp [addNew, hid]
      · have hadd : addNew list id = list ++ [id] := by simp [addNew, hid]
        rw [hadd, List.filter_cons_of_pos (by simpa using hid), List.eraseDups_cons,
          List.filter_filter, List.append_assoc, List.singleton_append]
        congr 3
        refine List.filter_congr fun x _ => ?_
        by_cases hx : x = id <;> simp [hx]

lemma Graph.onward_eq_choices (g : Graph) (loops : List Loop) (id : Nat) :
    g.onward loops id = g.choices loops id := by
  rw [onward, waysOut_eq_recordedExits, foldl_addNew_eq, choices]

lemma Graph.step_onwardTable {g : Graph} {id : Nat} (loops : List Loop) (h : id < g.size) :
    step (g.onwardTable loops) id = g.choices loops id := by
  simp [step, Graph.onwardTable, h, Graph.onward_eq_choices]

lemma Graph.Closed.lt_of_mem_choices {g : Graph} {loops : List Loop} (hg : g.Closed)
    (hloops : ∀ l ∈ loops, ∀ exit ∈ l.exit, exit < g.size) {id x : Nat}
    (h : x ∈ g.choices loops id) : x < g.size := by
  rcases List.mem_append.mp h with h | h
  · exact hg.lt_of_mem_successors h
  · rw [List.mem_eraseDups, List.mem_filter] at h
    obtain ⟨l, hl, _, hexit⟩ := mem_recordedExits.mp h.1
    exact hloops l hl x hexit

/-! ## The plain recursion -/

/-- The number of nodes that are not on a trail. -/
def offTrail (size : Nat) (trail : List Nat) : Nat :=
  ((Finset.range size).filter fun id => id ∉ trail).card

lemma offTrail_cons_lt {size id : Nat} {trail : List Nat} (h : ¬(id ∈ trail ∨ size ≤ id)) :
    offTrail size (id :: trail) < offTrail size trail := by
  rw [not_or, Nat.not_le] at h
  refine Finset.card_lt_card (Finset.ssubset_iff_of_subset ?_ |>.mpr ⟨id, ?_, ?_⟩)
  · intro x hx
    simp only [Finset.mem_filter, List.mem_cons, not_or] at hx ⊢
    exact ⟨hx.1, hx.2.2⟩
  · simpa using And.intro h.2 h.1
  · simp

section Recursion

variable (size : Nat) (next : Nat → List Nat) (isExit : Nat → Bool)

/-- **The plain depth-first search** for paths that end at an exit, having come along a trail that
is kept in reverse.  A node on the trail is not entered again, and an exit is not left. -/
def search (trail : List Nat) (id : Nat) : List (List Nat) :=
  if id ∈ trail ∨ size ≤ id then []
  else if isExit id then [(id :: trail).reverse]
  else (next id).flatMap fun child => search (id :: trail) child
termination_by offTrail size trail
decreasing_by exact offTrail_cons_lt ‹_›

/-- The nodes that the search tries, one entry each: the path that ends there, if one does. -/
def tries (trail : List Nat) (id : Nat) : List (Option (List Nat)) :=
  if id ∈ trail ∨ size ≤ id then [none]
  else if isExit id then [some (id :: trail).reverse]
  else none :: (next id).flatMap fun child => tries (id :: trail) child
termination_by offTrail size trail
decreasing_by exact offTrail_cons_lt ‹_›

/-- The paths among the tries are those of the plain search. -/
lemma filterMap_tries (trail : List Nat) (id : Nat) :
    (tries size next isExit trail id).filterMap (fun entry => entry)
      = search size next isExit trail id := by
  fun_induction search size next isExit trail id with
  | case1 trail id h => rw [tries, if_pos h]; rfl
  | case2 trail id h hexit => rw [tries, if_neg h, if_pos hexit]; rfl
  | case3 trail id h hexit ih =>
      rw [tries, if_neg h, if_neg hexit, List.filterMap_cons_none rfl, List.filterMap_flatMap]
      exact congrArg (fun f => List.flatMap f (next id)) (funext ih)

variable {size next isExit}

/-- The tries look at the nodes to go on to of existing nodes only. -/
lemma tries_congr {other : Nat → List Nat} (hother : ∀ id < size, next id = other id)
    (trail : List Nat) (id : Nat) :
    tries size next isExit trail id = tries size other isExit trail id := by
  fun_induction tries size next isExit trail id with
  | case1 trail id h => rw [tries, if_pos h]
  | case2 trail id h hexit => rw [tries, if_neg h, if_pos hexit]
  | case3 trail id h hexit ih =>
      rw [tries, if_neg h, if_neg hexit, ← hother id (by omega)]
      exact congrArg (fun f => none :: List.flatMap f (next id)) (funext ih)

end Recursion

/-! ## The search with a stack -/

/-- The tries that a stack of frames has still to make. -/
def remaining (size : Nat) (next : Nat → List Nat) (isExit : Nat → Bool) :
    List Frame → List (Option (List Nat))
  | [] => []
  | frame :: rest =>
      (frame.left.flatMap (tries size next isExit (frame.node :: rest.map Frame.node)))
        ++ remaining size next isExit rest

/-- **The result of going through tries within limits**, after some steps and paths. -/
def Limits.cut (limits : Limits) :
    (steps : Nat) → (found : Array (List Nat)) → List (Option (List Nat)) → PathSet
  | _, found, [] => ⟨found, false⟩
  | steps, found, entry :: rest =>
      if limits.stepsExceeded (steps + 1) then ⟨found, true⟩
      else
        match entry with
        | .none => limits.cut (steps + 1) found rest
        | .some path =>
            if limits.pathsReached found.size then ⟨found, true⟩
            else limits.cut (steps + 1) (found.push path) rest

@[simp] lemma Limits.stepsExceeded_none (step : Nat) : Limits.none.stepsExceeded step = false := rfl

@[simp] lemma Limits.pathsReached_none (count : Nat) : Limits.none.pathsReached count = false := rfl

lemma cut_none (list : List (Option (List Nat))) :
    ∀ (steps : Nat) (found : Array (List Nat)),
      Limits.none.cut steps found list = ⟨found ++ list.filterMap fun entry => entry, false⟩ := by
  induction list with
  | nil => intro steps found; simp [Limits.cut]
  | cons entry rest ih =>
      intro steps found
      cases entry with
      | none => simp [Limits.cut, ih]
      | some path => simp [Limits.cut, ih]

/-- **What holds along the search**: the nodes on the stack are different nodes of the graph and are
those that are marked, and only nodes of the graph are left to try. -/
structure OnPath (size : Nat) (onPath : Array Bool) (frames : List Frame) : Prop where
  size_eq : onPath.size = size
  marked : ∀ id : Nat, onPath[id]? = some true ↔ id ∈ frames.map Frame.node
  nodup : (frames.map Frame.node).Nodup
  left_lt : ∀ frame ∈ frames, ∀ id ∈ frame.left, id < size

namespace OnPath

variable {size node id : Nat} {onPath : Array Bool} {left : List Nat} {frames rest : List Frame}

lemma leave (h : OnPath size onPath (⟨node, left⟩ :: rest)) :
    OnPath size (onPath.setIfInBounds node false) rest where
  size_eq := by rw [Array.size_setIfInBounds, h.size_eq]
  marked := by
    intro id
    have hnode : node ∉ rest.map Frame.node := (List.nodup_cons.mp h.nodup).1
    rw [Array.getElem?_setIfInBounds]
    split_ifs with heq hlt
    · subst heq; simpa using hnode
    · subst heq; simpa using hnode
    · rw [h.marked, List.map_cons, List.mem_cons]
      exact or_iff_right (Ne.symm heq)
  nodup := (List.nodup_cons.mp h.nodup).2
  left_lt := fun frame hframe => h.left_lt frame (List.mem_cons_of_mem _ hframe)

lemma drop (h : OnPath size onPath (⟨node, id :: left⟩ :: rest)) :
    OnPath size onPath (⟨node, left⟩ :: rest) where
  size_eq := h.size_eq
  marked := h.marked
  nodup := h.nodup
  left_lt := by
    intro frame hframe
    rcases List.mem_cons.mp hframe with rfl | hframe
    · exact fun x hx => h.left_lt _ List.mem_cons_self x (List.mem_cons_of_mem _ hx)
    · exact h.left_lt frame (List.mem_cons_of_mem _ hframe)

lemma enter (h : OnPath size onPath frames) (hid : id < onPath.size) (hfree : onPath[id] = false)
    (hleft : ∀ x ∈ left, x < size) :
    OnPath size (onPath.set id true) (⟨id, left⟩ :: frames) where
  size_eq := by rw [Array.size_set, h.size_eq]
  marked := by
    intro x
    rw [Array.getElem?_set, List.map_cons, List.mem_cons, ← h.marked]
    split_ifs with heq
    · simp [heq]
    · exact (or_iff_right (Ne.symm heq)).symm
  nodup := by
    refine List.nodup_cons.mpr ⟨?_, h.nodup⟩
    rw [← h.marked, Array.getElem?_eq_getElem hid, hfree]
    simp
  left_lt := by
    intro frame hframe
    rcases List.mem_cons.mp hframe with rfl | hframe
    · exact hleft
    · exact h.left_lt frame hframe

lemma single (hnode : node < size) (hleft : ∀ x ∈ left, x < size) :
    OnPath size ((Array.replicate size false).setIfInBounds node true) [⟨node, left⟩] where
  size_eq := by simp
  marked := by
    intro id
    rw [Array.getElem?_setIfInBounds]
    split_ifs with heq hlt
    · simp [heq]
    · simp [hnode] at hlt
    · simp [Array.getElem?_replicate, Ne.symm heq]
  nodup := by simp
  left_lt := by simpa using hleft

end OnPath

/-- **The search makes the tries that its stack stands for**, one after the other, until a limit is
reached. -/
lemma enumerate_eq {size : Nat} (limits : Limits) (isExit : Nat → Bool) (table : Array (List Nat))
    (width : Nat) (hwidth : ∀ id, (step table id).length ≤ width)
    (htable : ∀ id, ∀ x ∈ step table id, x < size) (onPath : Array Bool) (frames : List Frame)
    (steps : Nat) (found : Array (List Nat)) (h : OnPath size onPath frames) :
    enumerate limits isExit table width hwidth onPath frames steps found
      = .ok (limits.cut steps found (remaining size (step table) isExit frames)) := by
  have htrail : ∀ {onPath : Array Bool} {node id : Nat} {left : List Nat} {rest : List Frame},
      OnPath size onPath (⟨node, id :: left⟩ :: rest) → (hlt : id < onPath.size) →
        onPath[id] = false → ¬(id ∈ node :: rest.map Frame.node ∨ size ≤ id) := by
    intro onPath node id left rest h hlt hfree
    rw [not_or, Nat.not_le, ← h.size_eq]
    refine ⟨fun hmem => ?_, hlt⟩
    have := (h.marked id).mpr hmem
    rw [Array.getElem?_eq_getElem hlt, hfree] at this
    simp at this
  fun_induction enumerate limits isExit table width hwidth onPath frames steps found with
  | case1 onPath steps found => rfl
  | case2 onPath steps found node rest ih =>
      rw [ih h.leave]
      rfl
  | case3 onPath steps found node id left rest hsteps =>
      have hne : tries size (step table) isExit (node :: rest.map Frame.node) id ≠ [] := by
        rw [tries]; split_ifs <;> simp
      obtain ⟨entry, more, htries⟩ := List.exists_cons_of_ne_nil hne
      simp only [remaining, List.flatMap_cons, htries, List.cons_append, Limits.cut, hsteps, if_true]
  | case4 onPath steps found node id left rest hsteps hlt hon ih =>
      have hmem : id ∈ node :: rest.map Frame.node :=
        (h.marked id).mp (by rw [Array.getElem?_eq_getElem hlt, hon])
      rw [ih h.drop, remaining, remaining, List.flatMap_cons, tries, if_pos (Or.inl hmem)]
      simp [Limits.cut, hsteps]
  | case5 onPath steps found node id left rest hsteps hlt hon hexit hpaths =>
      rw [remaining, List.flatMap_cons, tries, if_neg (htrail h hlt (by simpa using hon)),
        if_pos hexit]
      simp [Limits.cut, hsteps, hpaths]
  | case6 onPath steps found node id left rest hsteps hlt hon hexit hpaths ih =>
      rw [ih h.drop, remaining, remaining, List.flatMap_cons, tries,
        if_neg (htrail h hlt (by simpa using hon)), if_pos hexit]
      simp [Limits.cut, hsteps, hpaths, Frame.spine]
  | case7 onPath steps found node id left rest hsteps hlt hon hexit ih =>
      have hfree : onPath[id] = false := by simpa using hon
      rw [ih (h.drop.enter hlt hfree (htable id)), remaining, remaining, remaining,
        List.flatMap_cons, tries, if_neg (htrail h hlt hfree), if_neg hexit]
      simp [Limits.cut, hsteps]
  | case8 onPath steps found node id left rest hsteps hlt =>
      exact absurd (h.left_lt _ List.mem_cons_self id List.mem_cons_self) (h.size_eq ▸ hlt)

/-! ## The paths by a predicate -/

namespace Graph

variable {g : Graph} {loops : List Loop} {id : Nat} {walk trail : List Nat}

/-- **A way from a node to the first exit it meets**, without visiting a node twice. -/
structure ExitWalk (g : Graph) (loops : List Loop) (start : Nat) (walk : List Nat) : Prop where
  starts : walk.head? = some start
  linked : walk.IsChain fun a b => b ∈ g.choices loops a
  simple : walk.Nodup
  ends : ∃ exit, walk.getLast? = some exit ∧ g.isExit exit = true
  inside : ∀ x ∈ walk.dropLast, g.isExit x = false

lemma exitWalk_of_isExit (hexit : g.isExit id = true) : g.ExitWalk loops id walk ↔ walk = [id] := by
  constructor
  · intro h
    obtain ⟨tail, rfl⟩ := List.head?_eq_some_iff.mp h.starts
    cases tail with
    | nil => rfl
    | cons child tail =>
        have := h.inside id (by simp)
        rw [hexit] at this
        exact absurd this (by simp)
  · rintro rfl
    exact ⟨rfl, by simp, by simp, ⟨id, rfl, hexit⟩, by simp⟩

/-- From any other node the way goes on to a node from which it does not come back. -/
lemma exitWalk_of_not_isExit (hexit : g.isExit id = false) :
    g.ExitWalk loops id walk ↔
      ∃ child tail, walk = id :: tail ∧ child ∈ g.choices loops id ∧
        g.ExitWalk loops child tail ∧ id ∉ tail := by
  constructor
  · intro h
    obtain ⟨tail, rfl⟩ := List.head?_eq_some_iff.mp h.starts
    cases tail with
    | nil =>
        obtain ⟨exit, hlast, hend⟩ := h.ends
        obtain rfl : id = exit := by simpa using hlast
        rw [hexit] at hend
        exact absurd hend (by simp)
    | cons child tail =>
        have hlinked := List.isChain_cons_cons.mp h.linked
        have hsimple := List.nodup_cons.mp h.simple
        refine ⟨child, child :: tail, rfl, hlinked.1, ⟨rfl, hlinked.2, hsimple.2, ?_, ?_⟩, hsimple.1⟩
        · simpa using h.ends
        · exact fun x hx => h.inside x (List.mem_cons_of_mem _ hx)
  · rintro ⟨child, tail, rfl, hchild, h, hnot⟩
    obtain ⟨more, rfl⟩ := List.head?_eq_some_iff.mp h.starts
    refine ⟨rfl, List.isChain_cons_cons.mpr ⟨hchild, h.linked⟩, List.nodup_cons.mpr ⟨hnot, h.simple⟩,
      by simpa using h.ends, ?_⟩
    intro x hx
    rw [List.dropLast_cons_of_ne_nil (by simp)] at hx
    rcases List.mem_cons.mp hx with rfl | hx
    · exact hexit
    · exact h.inside x hx

/-- **The plain search finds the ways to an exit** that keep off the trail. -/
lemma mem_search (hchoices : ∀ id, ∀ x ∈ g.choices loops id, x < g.size) {path : List Nat}
    (hid : id < g.size) :
    path ∈ search g.size (g.choices loops) g.isExit trail id ↔
      ∃ walk, path = trail.reverse ++ walk ∧ g.ExitWalk loops id walk ∧ ∀ x ∈ walk, x ∉ trail := by
  fun_induction search g.size (g.choices loops) g.isExit trail id with
  | case1 trail id h =>
      simp only [List.not_mem_nil, false_iff, not_exists, not_and]
      intro walk _ hwalk hoff
      obtain ⟨tail, rfl⟩ := List.head?_eq_some_iff.mp hwalk.starts
      exact hoff id List.mem_cons_self (h.resolve_right (Nat.not_le.mpr hid))
  | case2 trail id h hexit =>
      rw [not_or] at h
      simp [exitWalk_of_isExit hexit, h.1]
  | case3 trail id h hexit ih =>
      rw [not_or] at h
      have hopen : g.isExit id = false := by simpa using hexit
      rw [List.mem_flatMap]
      constructor
      · rintro ⟨child, hchild, hpath⟩
        obtain ⟨walk, rfl, hwalk, hoff⟩ := (ih child (hchoices id child hchild)).mp hpath
        refine ⟨id :: walk, by simp, ?_, ?_⟩
        · refine (exitWalk_of_not_isExit hopen).mpr ⟨child, walk, rfl, hchild, hwalk, fun hmem => ?_⟩
          exact hoff id hmem List.mem_cons_self
        · intro x hx
          rcases List.mem_cons.mp hx with rfl | hx
          · exact h.1
          · exact fun hmem => hoff x hx (List.mem_cons_of_mem _ hmem)
      · rintro ⟨walk, rfl, hwalk, hoff⟩
        obtain ⟨child, tail, rfl, hchild, htail, hnot⟩ := (exitWalk_of_not_isExit hopen).mp hwalk
        refine ⟨child, hchild, (ih child (hchoices id child hchild)).mpr ⟨tail, by simp, htail, ?_⟩⟩
        intro x hx
        rw [List.mem_cons, not_or]
        exact ⟨fun heq => hnot (heq ▸ hx), hoff x (List.mem_cons_of_mem _ hx)⟩

/-! ## The paths of a graph -/

/-- The plain depth-first search in a graph. -/
def depthFirst (g : Graph) (loops : List Loop) (trail : List Nat) (id : Nat) : List (List Nat) :=
  search g.size (g.choices loops) g.isExit trail id

/-- **The paths of a graph whose entry is no exit**: the tries from the entry, within the limits. -/
lemma Closed.paths_eq (hg : g.Closed) (hloops : ∀ l ∈ loops, ∀ exit ∈ l.exit, exit < g.size)
    (hentry : g.entry < g.size) (hexit : g.isExit g.entry = false) (limits : Limits) :
    g.paths loops limits = .ok (limits.cut 0 #[]
      ((g.choices loops g.entry).flatMap (tries g.size (g.choices loops) g.isExit [g.entry]))) := by
  have htable : ∀ id, ∀ x ∈ step (g.onwardTable loops) id, x < g.size := by
    intro id x hx
    rcases Nat.lt_or_ge id g.size with hid | hid
    · rw [step_onwardTable loops hid] at hx
      exact hg.lt_of_mem_choices hloops hx
    · simp [step, onwardTable, Nat.not_lt.mpr hid] at hx
  have hsame : ∀ id < g.size, step (g.onwardTable loops) id = g.choices loops id :=
    fun id => step_onwardTable loops
  rw [paths, if_neg (by simp [hexit])]
  refine (enumerate_eq limits g.isExit _ _ _ htable _ _ _ _
    (OnPath.single hentry (htable g.entry))).trans ?_
  rw [remaining, remaining, List.append_nil, hsame g.entry hentry, List.map_nil,
    funext (tries_congr hsame [g.entry])]

lemma paths_of_size_eq_zero (hsize : g.size = 0) (limits : Limits) :
    g.paths loops limits = .ok ⟨#[], false⟩ := by
  have hexit : g.isExit g.entry = false := by
    rw [← Bool.not_eq_true]
    intro h
    exact absurd (lt_size_of_isExit h) (by omega)
  have hstep : step (g.onwardTable loops) g.entry = [] := by
    simp [step, onwardTable, hsize]
  simp only [paths, hexit, Bool.false_eq_true, if_false, hstep]
  rw [enumerate, enumerate]

/-- **The search for paths is exact.**  Without limits it ends, is not cut short, and finds the ways
from the entry to the first exit they meet that visit no node twice, in the order of the plain
depth-first search. -/
theorem paths_unlimited_exact (g : Graph) (loops : List Loop) (hg : g.Closed)
    (hloops : ∀ l ∈ loops, ∀ exit ∈ l.exit, exit < g.size) :
    ∃ paths, g.paths loops .none = .ok ⟨paths, false⟩ ∧
      (∀ path, path ∈ paths ↔ g.ExitWalk loops g.entry path) ∧
      paths.toList = g.depthFirst loops [] g.entry := by
  have hchoices : ∀ id, ∀ x ∈ g.choices loops id, x < g.size :=
    fun id x => hg.lt_of_mem_choices hloops
  rcases Nat.eq_zero_or_pos g.size with hsize | hsize
  · have hempty : ∀ x, g.isExit x = false := by
      intro x
      rw [← Bool.not_eq_true]
      intro h
      exact absurd (lt_size_of_isExit h) (by omega)
    refine ⟨#[], paths_of_size_eq_zero hsize .none, fun path => ?_, ?_⟩
    · simp only [Array.not_mem_empty, false_iff]
      rintro ⟨_, _, _, ⟨exit, _, hexit⟩, _⟩
      simp [hempty] at hexit
    · rw [depthFirst, search, if_pos (Or.inr (by omega))]
  · have hentry : g.entry < g.size := hsize
    have hmem : ∀ path, path ∈ g.depthFirst loops [] g.entry ↔ g.ExitWalk loops g.entry path := by
      intro path
      rw [depthFirst, mem_search hchoices hentry]
      simp
    have hfree : ¬(g.entry ∈ ([] : List Nat) ∨ g.size ≤ g.entry) := by
      simpa using hentry
    suffices h : g.paths loops .none = .ok ⟨(g.depthFirst loops [] g.entry).toArray, false⟩ from
      ⟨_, h, fun path => by rw [List.mem_toArray, hmem], rfl⟩
    by_cases hexit : g.isExit g.entry = true
    · rw [depthFirst, search, if_neg hfree, if_pos hexit, paths, if_pos hexit]
      rfl
    · rw [hg.paths_eq hloops hentry (by simpa using hexit), cut_none, List.filterMap_flatMap,
        funext (filterMap_tries _ _ _ _), depthFirst, search, if_neg hfree, if_neg hexit]
      simp

/-- A loop of two nodes, whose header leads to nothing but the other one. -/
def twoNodeLoop : Graph where
  nodes := #[
    ⟨⟨0, .jumpdest, []⟩, some 1, none, none⟩,
    ⟨⟨1, .jumpdest, []⟩, some 2, none, none⟩,
    ⟨⟨2, .jumpdest, []⟩, some 3, some 1, none⟩,
    ⟨⟨3, .ret, []⟩, none, none, none⟩]

/-- Three records of loops headed by node 1: two with the exit behind the loop, one with a successor. -/
def twoNodeLoopRecords : List Loop :=
  [⟨1, some 3, [1, 2], [], []⟩, ⟨1, some 2, [1], [], []⟩, ⟨1, some 3, [1], [], []⟩]

/-- The exit of the loop is no successor of its header, which goes on to it once, although two loops record
it; the successor is not gone on to a second time, although a loop records it. -/
theorem paths_unlimited_sample :
    twoNodeLoop.Closed ∧ (∀ l ∈ twoNodeLoopRecords, ∀ exit ∈ l.exit, exit < twoNodeLoop.size) ∧
      3 ∉ twoNodeLoop.successors 1 ∧ twoNodeLoop.choices twoNodeLoopRecords 1 = [2, 3] ∧
      ∃ paths, twoNodeLoop.paths twoNodeLoopRecords .none = .ok ⟨paths, false⟩ ∧
        paths.toList = [[0, 1, 2, 3], [0, 1, 3]] ∧ [0, 1, 2, 1, 3] ∉ paths := by
  obtain ⟨paths, heq, hmem, hlist⟩ :=
    paths_unlimited_exact twoNodeLoop twoNodeLoopRecords (by decide) (by decide)
  have hrun : twoNodeLoop.depthFirst twoNodeLoopRecords [] 0 = [[0, 1, 2, 3], [0, 1, 3]] := by cbv
  refine ⟨by decide, by decide, by decide, by decide, paths, heq, hlist.trans hrun, fun hpath => ?_⟩
  exact absurd ((hmem _).mp hpath).simple (by decide)

end Graph

end BytecodeFlow
