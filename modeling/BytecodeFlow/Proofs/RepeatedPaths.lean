import Mathlib
import BytecodeFlow.Proofs.BackBranches
import BytecodeFlow.Proofs.PathLimits
import BytecodeFlow.Proofs.Totality

/-!
# How often a path is found

The search for paths tries every slot of a node, so a step from one node to another is made once for
each slot that leads there.  This file counts how often a path is found.

**The count.**  `ways` multiplies, along a path, how often each step can be made.  The plain search finds
a path that often (`count_search`), since its first step fixes which of the branches of the search can
find it at all.  A shortcut out of a loop adds nothing to the count: it is tried once, and only if no
slot leads there (`count_choices`).

**The code in order.**  In a graph as it was built two slots lead to one node only behind a call, which
resumes where the code goes on, and behind a jump to the instruction that follows it
(`count_successors_of_build`).  Every such step doubles the number of times a path is found.
-/

namespace BytecodeFlow

/-! ## Steps -/

/-- The steps of a path: each of its nodes with the one behind it. -/
def stepsOf (path : List Nat) : List (Nat × Nat) :=
  path.zip path.tail

@[simp] lemma stepsOf_singleton (a : Nat) : stepsOf [a] = [] := rfl

@[simp] lemma stepsOf_cons_cons (a b : Nat) (path : List Nat) :
    stepsOf (a :: b :: path) = (a, b) :: stepsOf (b :: path) := rfl

lemma isChain_iff_stepsOf {R : Nat → Nat → Prop} (path : List Nat) :
    path.IsChain R ↔ ∀ step ∈ stepsOf path, R step.1 step.2 := by
  induction path with
  | nil => simp [stepsOf]
  | cons a path ih =>
      cases path with
      | nil => simp
      | cons b path => simp [ih]

/-- **The number of ways to take the steps of a path**, where a step can be made as often as its target is
listed. -/
def ways (next : Nat → List Nat) (path : List Nat) : Nat :=
  ((stepsOf path).map fun step => (next step.1).count step.2).prod

lemma count_foldl_addNew (v : Nat) (ids : List Nat) :
    ∀ list : List Nat,
      (ids.foldl addNew list).count v = max (list.count v) (if v ∈ ids then 1 else 0) := by
  induction ids with
  | nil => simp
  | cons id ids ih =>
      intro list
      have hadd : (addNew list id).count v = max (list.count v) (if v = id then 1 else 0) := by
        by_cases hmem : id ∈ list
        · by_cases hv : v = id
          · have := List.count_pos_iff.mpr hmem
            simp only [addNew, List.contains_eq_mem, hmem, decide_true, if_true, hv]
            omega
          · simp [addNew, hmem, hv]
        · by_cases hv : v = id
          · subst hv
            simp [addNew, hmem, List.count_eq_zero_of_not_mem hmem]
          · simp [addNew, hmem, hv, Ne.symm hv]
      rw [List.foldl_cons, ih, hadd]
      by_cases hv : v = id
      · subst hv
        simp only [if_true, List.mem_cons_self]
        split_ifs <;> omega
      · simp [hv]

lemma Opcode.not_isJump_of_isCall {op : Opcode} (h : op.isCall = true) : op.isJump = false := by
  simp only [isCall, Bool.or_eq_true, decide_eq_true_eq] at h
  rcases h with ((rfl | rfl) | rfl) | rfl <;> decide

namespace Graph

variable {g : Graph} {loops : List Loop} {instructions : Array Instruction} {id u v : Nat}
  {walk : List Nat}

/-! ## The count -/

/-- **The plain search finds a way to an exit as often as its steps can be taken.** -/
lemma count_search (hchoices : ∀ id, ∀ x ∈ g.choices loops id, x < g.size) (trail : List Nat)
    (hid : id < g.size) (hwalk : g.ExitWalk loops id walk) (hoff : ∀ x ∈ walk, x ∉ trail) :
    (search g.size (g.choices loops) g.isExit trail id).count (trail.reverse ++ walk)
      = ways (g.choices loops) walk := by
  fun_induction search g.size (g.choices loops) g.isExit trail id generalizing walk with
  | case1 trail id h =>
      obtain ⟨tail, rfl⟩ := List.head?_eq_some_iff.mp hwalk.starts
      exact absurd (h.resolve_right (Nat.not_le.mpr hid)) (hoff id List.mem_cons_self)
  | case2 trail id h hexit =>
      obtain rfl := (exitWalk_of_isExit hexit).mp hwalk
      simp [ways]
  | case3 trail id h hexit ih =>
      have hopen : g.isExit id = false := by simpa using hexit
      obtain ⟨child, tail, rfl, hchild, htail, hnot⟩ := (exitWalk_of_not_isExit hopen).mp hwalk
      have hbelow : (search g.size (g.choices loops) g.isExit (id :: trail) child).count
          (trail.reverse ++ id :: tail) = ways (g.choices loops) tail := by
        rw [← ih child (hchoices id child hchild) htail fun x hx => ?_]
        · simp
        · rw [List.mem_cons, not_or]
          exact ⟨fun heq => hnot (heq ▸ hx), hoff x (List.mem_cons_of_mem _ hx)⟩
      -- what is found below another node has that node in the place of `child`
      have hbeside : ∀ other, other ≠ child → other ∈ g.choices loops id →
          ((List.count (trail.reverse ++ id :: tail)) ∘
            (search g.size (g.choices loops) g.isExit (id :: trail))) other = 0 := by
        intro other hne hother
        rw [Function.comp_apply, List.count_eq_zero]
        intro hmem
        obtain ⟨walk, hpath, hwalk, _⟩ := (mem_search hchoices (hchoices id other hother)).mp hmem
        obtain rfl : tail = walk := by simpa using hpath
        exact hne (Option.some.inj (hwalk.starts.symm.trans htail.starts))
      rw [List.count_flatMap, List.sum_map_eq_nsmul_single child _ hbeside, Function.comp_apply, hbelow]
      obtain ⟨more, rfl⟩ := List.head?_eq_some_iff.mp htail.starts
      simp [ways]

/-- **A shortcut is tried once, and only where no slot leads.** -/
lemma count_choices (h : v ∈ g.choices loops u) :
    (g.choices loops u).count v = max 1 ((g.successors u).count v) := by
  have hpos : 0 < (g.choices loops u).count v := List.count_pos_iff.mpr h
  rw [← onward_eq_choices, onward, count_foldl_addNew] at hpos ⊢
  split_ifs at hpos ⊢ <;> omega

lemma Closed.paths_none_eq (hg : g.Closed) (hentry : g.entry < g.size)
    (hloops : ∀ l ∈ loops, ∀ exit ∈ l.exit, exit < g.size) :
    g.paths loops .none = .ok ⟨(g.depthFirst loops [] g.entry).toArray, false⟩ := by
  have hfree : ¬(g.entry ∈ ([] : List Nat) ∨ g.size ≤ g.entry) := by simpa using hentry
  cases hexit : g.isExit g.entry with
  | true =>
      rw [depthFirst, search, if_neg hfree, if_pos hexit, paths, if_pos hexit]
      rfl
  | false =>
      rw [hg.paths_eq hloops hentry hexit, cut_none, List.filterMap_flatMap,
        funext (filterMap_tries _ _ _ _), depthFirst, search, if_neg hfree, if_neg (by simp [hexit])]
      simp

lemma Closed.mem_depthFirst (hg : g.Closed) (hentry : g.entry < g.size)
    (hloops : ∀ l ∈ loops, ∀ exit ∈ l.exit, exit < g.size) {path : List Nat} :
    path ∈ g.depthFirst loops [] g.entry ↔ g.ExitWalk loops g.entry path := by
  rw [depthFirst, mem_search (fun id x => hg.lt_of_mem_choices hloops) hentry]
  simp

lemma Closed.prefix_depthFirst (hg : g.Closed) (hentry : g.entry < g.size)
    (hloops : ∀ l ∈ loops, ∀ exit ∈ l.exit, exit < g.size) (limits : Limits) :
    ∃ found, g.paths loops limits = .ok found ∧
      found.paths.toList <+: g.depthFirst loops [] g.entry := by
  obtain ⟨list, walks, htries⟩ := hg.exists_tries hloops
  have hall : g.depthFirst loops [] g.entry = (Limits.none.cut 0 #[] list).paths.toList := by
    have hnone := (hg.paths_none_eq hentry hloops).symm.trans (htries .none)
    rw [Limits.none, Limits.counted_of_maxSteps_eq_none] at hnone
    exact congrArg (fun found : PathSet => found.paths.toList) (Except.ok.inj hnone)
  refine ⟨_, htries limits, ?_⟩
  rw [hall]
  exact (Limits.cut_mono (Limits.le_none _) list 0 #[]).1

/-! ## The code in order -/

/-- Whether two slots of a node of a graph as it was built lead on to the next one: the node is a call,
or a jump to the instruction behind it. -/
def runsOnTwice (g : Graph) (id : Nat) : Bool :=
  (g.instruction? id).any (·.opcode.isCall) || g.branch? id = some (id + 1)

/-- The steps of a path that are made in two ways. -/
def doubledSteps (g : Graph) (path : List Nat) : List (Nat × Nat) :=
  (stepsOf path).filter fun step => step.2 = step.1 + 1 ∧ g.runsOnTwice step.1 = true

lemma isJump_of_branch? {t : Nat} (h : build instructions = .ok g) (hbranch : g.branch? u = some t) :
    ∃ i, g.instruction? u = some i ∧ i.opcode.isJump = true := by
  rw [branch?_of_build h] at hbranch
  obtain ⟨target, htarget, _⟩ := Option.bind_eq_some_iff.mp hbranch
  obtain ⟨i, hi, htarget⟩ := Option.bind_eq_some_iff.mp htarget
  split_ifs at htarget with hjump
  exact ⟨i, by rw [instruction?_of_build h, hi], hjump⟩

/-- The slots of a call lead to the next node twice, and those of any other node there and to its
branch. -/
lemma successors_of_build (h : build instructions = .ok g) {i : Instruction}
    (hi : g.instruction? u = some i) :
    g.successors u = (if u + 1 < g.size then [u + 1] else []) ++
      if i.opcode.isCall then (if u + 1 < g.size then [u + 1] else []) else (g.branch? u).toList := by
  have hsize := size_of_build h
  rw [instruction?_of_build h] at hi
  have hnode : g.nodes[u]? = some (nodeOf instructions u i) := by
    obtain ⟨_, _, rfl⟩ := build_eq_ok_iff.mp h
    simp [hi]
  rw [successors_eq hnode, Node.targets_eq, branch?, hnode, hsize]
  cases hcall : i.opcode.isCall with
  | true =>
      simp only [nodeOf, hcall, Opcode.not_isJump_of_isCall hcall, Bool.false_eq_true, if_true, if_false]
      split_ifs <;> rfl
  | false =>
      simp only [nodeOf, hcall, Bool.false_eq_true, if_false, Option.bind_some]
      split_ifs <;> simp

/-- **Two slots of a graph as it was built lead to one node only behind a call or a jump to the next
instruction.** -/
lemma count_successors_of_build (h : build instructions = .ok g) (hv : v ∈ g.successors u) :
    (g.successors u).count v = if v = u + 1 ∧ g.runsOnTwice u = true then 2 else 1 := by
  have hlt := (closed_of_build h).lt_of_mem_successors hv
  obtain ⟨node, hnode⟩ := nodes_eq_some_of_lt (lt_size_of_mem_successors hv)
  have hi : g.instruction? u = some node.instruction := by rw [instruction?, hnode]; rfl
  rw [successors_of_build h hi] at hv ⊢
  cases hcall : node.instruction.opcode.isCall with
  | true =>
      have htwice : g.runsOnTwice u = true := by simp [runsOnTwice, hi, hcall]
      simp only [hcall, if_true] at hv ⊢
      split_ifs at hv ⊢ <;> simp_all
  | false =>
      have htwice : g.runsOnTwice u = decide (g.branch? u = some (u + 1)) := by
        simp [runsOnTwice, hi, hcall]
      simp only [hcall, Bool.false_eq_true, if_false, htwice, decide_eq_true_eq] at hv ⊢
      -- a node that is not numbered next is met once at most
      by_cases hnext : v = u + 1
      · subst hnext
        cases hbranch : g.branch? u with
        | none => simp [hlt]
        | some t => by_cases ht : t = u + 1 <;> simp [hlt, ht]
      · have hfirst : v ∉ (if u + 1 < g.size then [u + 1] else []) := by
          split_ifs <;> simp [hnext]
        have hbranch : g.branch? u = some v := by
          simpa using (List.mem_append.mp hv).resolve_left hfirst
        rw [List.count_append, List.count_eq_zero_of_not_mem hfirst, hbranch]
        simp [hnext]

lemma count_choices_of_build (h : build instructions = .ok g)
    (hloops : ∀ l ∈ loops, ∀ exit ∈ l.exit, exit < g.size) (hv : v ∈ g.choices loops u) :
    (g.choices loops u).count v = if v = u + 1 ∧ g.runsOnTwice u = true then 2 else 1 := by
  have hlt := (closed_of_build h).lt_of_mem_choices hloops hv
  rw [count_choices hv]
  by_cases hslot : v ∈ g.successors u
  · rw [count_successors_of_build h hslot]
    split_ifs <;> rfl
  · have hnext : v ≠ u + 1 := by
      rintro rfl
      exact hslot (following?_mem_successors ((asBuilt_of_build h).following?_eq hlt))
    rw [List.count_eq_zero_of_not_mem hslot, if_neg (by simp [hnext])]
    rfl

/-- **Every doubled step doubles the ways to take a path.** -/
lemma ways_of_build (h : build instructions = .ok g)
    (hloops : ∀ l ∈ loops, ∀ exit ∈ l.exit, exit < g.size) {path : List Nat}
    (hpath : path.IsChain fun a b => b ∈ g.choices loops a) :
    ways (g.choices loops) path = 2 ^ (g.doubledSteps path).length := by
  have hcount : ∀ step ∈ stepsOf path, (g.choices loops step.1).count step.2
      = if step.2 = step.1 + 1 ∧ g.runsOnTwice step.1 = true then 2 else 1 :=
    fun step hstep => count_choices_of_build h hloops ((isChain_iff_stepsOf path).mp hpath step hstep)
  rw [ways, List.map_congr_left hcount, List.prod_map_ite, doubledSteps]
  simp

lemma exists_build_of_ofImage {image : Image} (h : ofImage image = .ok g) :
    ∃ instructions, build instructions = .ok g := by
  obtain ⟨d, _, hbuild⟩ := exists_of_bind_eq_ok h
  exact ⟨_, hbuild⟩

lemma entry_lt_of_build (h : build instructions = .ok g) : g.entry < g.size := by
  rw [size_of_build h]
  exact Array.size_pos_iff.mpr (build_eq_ok_iff.mp h).1

/-- **A path is found twice for each of its doubled steps.**  Without limits, a path of the graph of an
image is found two to the power of the number of its steps that two slots make; and limits cut a part
off that.  So no path is ever found twice exactly if no path steps from a call, or from a jump to the
instruction behind it, to the next node. -/
theorem paths_distinct_iff (image : Image) (g : Graph) (h : ofImage image = .ok g) :
    ∃ loops all, g.loops = .ok loops ∧ g.paths loops .none = .ok ⟨all, false⟩ ∧
      (∀ path ∈ all, all.count path = 2 ^ (g.doubledSteps path).length) ∧
      (∀ limits, ∃ found, g.paths loops limits = .ok found ∧ found.paths.toList <+: all.toList) ∧
      ((∀ limits found, g.paths loops limits = .ok found → found.paths.toList.Nodup) ↔
        ∀ path ∈ all, g.doubledSteps path = []) := by
  obtain ⟨instructions, hbuild⟩ := exists_build_of_ofImage h
  have hg := closed_of_build hbuild
  have hentry := entry_lt_of_build hbuild
  obtain ⟨loops, hloops, hrange⟩ := hg.loops_in_range hentry
  have hexits := fun l hl => (hrange l hl).2
  have hnone := hg.paths_none_eq hentry hexits
  have hcut := hg.prefix_depthFirst hentry hexits
  have hcount : ∀ path ∈ g.depthFirst loops [] g.entry,
      (g.depthFirst loops [] g.entry).count path = 2 ^ (g.doubledSteps path).length := by
    intro path hpath
    have hwalk := (hg.mem_depthFirst hentry hexits).mp hpath
    rw [← ways_of_build hbuild hexits hwalk.linked]
    exact count_search (fun id x => hg.lt_of_mem_choices hexits) [] hentry hwalk (by simp)
  refine ⟨loops, _, hloops, hnone, by simpa using hcount, hcut, ?_⟩
  simp only [List.mem_toArray]
  constructor
  · intro hnodup path hpath
    have hone := List.count_eq_one_of_mem (hnodup _ _ hnone) hpath
    rw [hcount path hpath] at hone
    simpa using hone
  · intro hsingle limits found hfound
    obtain ⟨_, heq, hprefix⟩ := hcut limits
    obtain rfl := Except.ok.inj (heq.symm.trans hfound)
    refine hprefix.sublist.nodup (List.nodup_iff_count_le_one.mpr fun path => ?_)
    by_cases hpath : path ∈ g.depthFirst loops [] g.entry
    · simp [hcount path hpath, hsingle path hpath]
    · simp [List.count_eq_zero_of_not_mem hpath]

/-- A loop that is left by running on from its last instruction, or by the shortcut from its header. -/
def leavingLoop : Image := #[0x5b, 0x60, 0x00, 0x57, 0xf3]

/-- The graph of the loop. -/
def leavingLoopGraph : Graph where
  nodes := #[
    ⟨⟨0, .jumpdest, []⟩, some 1, none, none⟩,
    ⟨⟨1, ⟨0x60⟩, [0x00]⟩, some 2, none, none⟩,
    ⟨⟨3, .jumpi, []⟩, some 3, some 0, none⟩,
    ⟨⟨4, .ret, []⟩, none, none, none⟩]

lemma ofImage_leavingLoop : ofImage leavingLoop = .ok leavingLoopGraph := by
  cbv

lemma loops_leavingLoopGraph :
    leavingLoopGraph.loops = .ok [⟨0, some 3, [0, 1, 2], [], []⟩] := by
  have hback : leavingLoopGraph.loopBack 2 0 = ⟨0, some 3, [0, 1, 2], [], []⟩ := by
    rw [loopBack, loopOf, wayOut?_eq_find?]
    cbv
  obtain ⟨_, hbuild⟩ := exists_build_of_ofImage ofImage_leavingLoop
  rw [(asBuilt_of_build hbuild).loops_eq (by decide), ← hback]
  rfl

/-- The two ways out of the loop are two paths, and no step is made by two slots. -/
theorem paths_distinct_leavingLoop :
    ofImage leavingLoop = .ok leavingLoopGraph ∧
      ∃ loops, leavingLoopGraph.loops = .ok loops ∧
        leavingLoopGraph.paths loops .none = .ok ⟨#[[0, 1, 2, 3], [0, 3]], false⟩ ∧
        ∀ limits found, leavingLoopGraph.paths loops limits = .ok found →
          found.paths.toList.Nodup := by
  have hpaths : leavingLoopGraph.paths [⟨0, some 3, [0, 1, 2], [], []⟩] .none
      = .ok ⟨#[[0, 1, 2, 3], [0, 3]], false⟩ := by cbv
  obtain ⟨loops, all, hloops, hall, _, _, hiff⟩ := paths_distinct_iff leavingLoop _ ofImage_leavingLoop
  obtain rfl := Except.ok.inj (hloops.symm.trans loops_leavingLoopGraph)
  obtain rfl := (PathSet.mk.inj (Except.ok.inj (hall.symm.trans hpaths))).1
  exact ⟨ofImage_leavingLoop, _, hloops, hall, hiff.mpr (by decide)⟩

/-- **Behind a call a path is found twice.** -/
theorem paths_repeat_behind_call :
    ∃ g loops found, ofImage #[0xf1, 0xf3] = .ok g ∧ g.loops = .ok loops ∧
      g.paths loops .none = .ok found ∧ found.paths = #[[0, 1], [0, 1]] ∧
      ¬found.paths.toList.Nodup := by
  refine ⟨⟨#[⟨⟨0, .call, []⟩, some 1, none, some 1⟩, ⟨⟨1, .ret, []⟩, none, none, none⟩]⟩, [],
    ⟨#[[0, 1], [0, 1]], false⟩, ?_, ?_, ?_, rfl, by decide⟩
  · cbv
  · cbv
  · cbv

end Graph

end BytecodeFlow
