import Mathlib
import BytecodeFlow.Proofs.JumpSites
import BytecodeFlow.Proofs.NaturalLoops

/-!
# The loops of a graph as it was built

In a graph that has just been built every node is followed by the one numbered behind it.  The search
for loops therefore runs through all of the code before it leaves a node, and finds the loops on its way
back.  This file turns that into a closed form: one loop for every branch that does not go forward, the
last branch first.

**The code in order.**  `Graph.AsBuilt` is what is used of the slots.  The way through the code from one
node to a later one is the range between them (`AsBuilt.chain?_eq`), and only a branch can lead back
(`AsBuilt.filter_successors`).

**The way back.**  While the search is on its way through the code, the nodes behind it are fresh; on its
way back they have been left (`Scan.Halfway`).  A slot then closes a loop exactly if it does not lead
forward (`Scan.run_slots`), and by induction from the end of the code the search leaves one node
after the other (`Scan.run_back`).
-/

namespace BytecodeFlow

open Disassembly

/-! ## The code in order -/

lemma Node.targets_eq (node : Node) :
    node.targets = node.next.toList ++ (node.branch.toList ++ node.callContinuation.toList) := by
  obtain ⟨instruction, next, branch, callContinuation⟩ := node
  cases next <;> cases branch <;> cases callContinuation <;> rfl

namespace Graph

variable {g : Graph} {instructions : Array Instruction} {i t : Nat}

/-- **A graph in which the code goes on from every node to the next one**, where a call resumes too. -/
structure AsBuilt (g : Graph) : Prop where
  closed : g.Closed
  next : ∀ (i : Nat) (node : Node), g.nodes[i]? = some node →
    node.next = if i + 1 < g.size then some (i + 1) else none
  resumes : ∀ (i : Nat) (node : Node), g.nodes[i]? = some node →
    ∀ t ∈ node.callContinuation, t = i + 1

lemma asBuilt_of_build (h : build instructions = .ok g) : g.AsBuilt := by
  have hclosed := closed_of_build h
  obtain ⟨_, _, rfl⟩ := build_eq_ok_iff.mp h
  refine ⟨hclosed, fun i node hnode => ?_, fun i node hnode t ht => ?_⟩
  · obtain ⟨instruction, _, rfl⟩ := Option.map_eq_some_iff.mp (Array.getElem?_mapIdx ▸ hnode)
    simp [nodeOf, size]
  · obtain ⟨instruction, _, rfl⟩ := Option.map_eq_some_iff.mp (Array.getElem?_mapIdx ▸ hnode)
    simp only [nodeOf, Option.mem_def] at ht
    split_ifs at ht
    exact (Option.some.inj ht).symm

namespace AsBuilt

lemma following?_eq (h : g.AsBuilt) (hi : i + 1 < g.size) : g.following? i = some (i + 1) := by
  obtain ⟨node, hnode⟩ := nodes_eq_some_of_lt (Nat.lt_of_succ_lt hi)
  rw [following?, hnode, Option.bind_some, h.next i node hnode, if_pos hi]

/-- The next node is tried before any other. -/
lemma successors_eq_cons (h : g.AsBuilt) (hi : i + 1 < g.size) :
    ∃ others, g.successors i = (i + 1) :: others := by
  obtain ⟨node, hnode⟩ := nodes_eq_some_of_lt (Nat.lt_of_succ_lt hi)
  rw [successors_eq hnode, Node.targets_eq, h.next i node hnode, if_pos hi]
  exact ⟨_, rfl⟩

/-- **Only a branch can lead back.** -/
lemma filter_successors (h : g.AsBuilt) (i : Nat) :
    (g.successors i).filter (· ≤ i) = (g.branch? i).toList.filter (· ≤ i) := by
  cases hnode : g.nodes[i]? with
  | none => simp [successors, branch?, hnode]
  | some node =>
      have hnext : node.next.toList.filter (· ≤ i) = [] := by
        rw [h.next i node hnode]
        split_ifs <;> simp
      have hcall : node.callContinuation.toList.filter (· ≤ i) = [] := by
        rw [List.filter_eq_nil_iff]
        intro t ht
        simp [h.resumes i node hnode t (by simpa using ht)]
      rw [successors_eq hnode, Node.targets_eq, List.filter_append, List.filter_append, hnext, hcall,
        branch?, hnode, List.nil_append, List.append_nil, Option.bind_some]

/-- **The way through the code to a later node is the range up to it.** -/
lemma chain?_eq (h : g.AsBuilt) (hti : t ≤ i) (hi : i < g.size) :
    g.chain? t i = some (List.range' t (i + 1 - t)) := by
  have hrange : List.range' t (i + 1 - t) = t :: List.range' (t + 1) (i - t) := by
    rw [Nat.succ_sub hti, List.range'_succ]
  have hchain : (List.range' t (i + 1 - t)).IsChain fun a b => g.following? a = some b := by
    rw [List.isChain_iff_getElem]
    intro k hk
    rw [List.length_range'] at hk
    simp only [List.getElem_range', Nat.one_mul]
    exact h.following?_eq (by omega)
  have hlast : (List.range' t (i + 1 - t)).getLast? = some i := by
    rw [List.getLast?_range', if_neg (by omega)]
    congr 1
    omega
  rw [hrange] at hchain hlast ⊢
  refine h.closed.chain?_of_chainWithin (hti.trans_lt hi) (chainWithin_of_isChain hchain ?_ hlast)
  rw [← hrange]
  exact List.nodup_range'

end AsBuilt

/-- The loop of an edge from a node back to one before it in the code. -/
def loopBack (g : Graph) (i t : Nat) : Loop :=
  g.loopOf t (List.range' t (i + 1 - t))

/-- The loops that a node closes. -/
def loopsAt (g : Graph) (i : Nat) : List Loop :=
  ((g.successors i).filter (· ≤ i)).map (g.loopBack i)

end Graph

/-! ## The way back -/

namespace Scan

variable {g : Graph} {scan : Scan} {k : Nat} {v : Visit}

/-- **A search on its way through the code or back**: the nodes before a number are entered and not left,
and all others are in one state. -/
def Halfway (g : Graph) (scan : Scan) (k : Nat) (v : Visit) : Prop :=
  ∀ i : Nat, scan.visits[i]? = if i < k then some .active else if i < g.size then some v else none

namespace Halfway

lemma lt_size (h : Halfway g scan k v) {i : Nat} (hi : i < g.size) : i < scan.visits.size := by
  have hvisit := h i
  by_contra hge
  rw [Array.getElem?_eq_none (Nat.not_lt.mp hge)] at hvisit
  split_ifs at hvisit

lemma enter (h : Halfway g scan k .fresh) (hk : k < g.size) :
    Halfway g (scan.enter k) (k + 1) .fresh := by
  intro i
  rw [getElem?_visits_enter _ _ _ (h.lt_size hk), h i]
  split_ifs <;> first | rfl | omega

lemma leave (h : Halfway g scan (k + 1) .done) (hk : k < g.size) :
    Halfway g (scan.leave k) k .done := by
  intro i
  rw [getElem?_visits_leave _ _ _ (h.lt_size hk), h i]
  split_ifs <;> first | rfl | omega

/-- At the end of the code there are no other nodes. -/
lemma turn (h : Halfway g scan g.size .fresh) : Halfway g scan g.size .done := by
  intro i
  rw [h i]
  split_ifs <;> rfl

end Halfway

/-- **On the way back a slot closes a loop exactly if it does not lead forward.** -/
lemma run_slots (hg : g.AsBuilt) (hk : k < g.size) (rest : List Frame) {slots : List Nat}
    (hslots : ∀ t ∈ slots, t < g.size) :
    ∀ scan, Halfway g scan (k + 1) .done →
      ∃ scan', run g scan (⟨k, slots⟩ :: rest) = run g scan' rest ∧ Halfway g scan' k .done ∧
        scan'.loops.toList = scan.loops.toList ++ (slots.filter (· ≤ k)).map (g.loopBack k) := by
  induction slots with
  | nil =>
      intro scan h
      exact ⟨scan.leave k, run_leave g scan k rest, h.leave hk, by simp [Scan.leave]⟩
  | cons t slots ih =>
      intro scan h
      have ht : t < g.size := hslots t List.mem_cons_self
      have hslots : ∀ t ∈ slots, t < g.size := fun t ht => hslots t (List.mem_cons_of_mem _ ht)
      by_cases htk : t ≤ k
      · have hactive : scan.visits[t]? = some .active := by rw [h t, if_pos (by omega)]
        have hclose : (scan.close g t k).loops.toList = scan.loops.toList ++ [g.loopBack k t] := by
          simp [Scan.close, hg.chain?_eq htk hk, Graph.loopBack]
        obtain ⟨scan', hrun, hhalf, hloops⟩ := ih hslots (scan.close g t k) fun i => by
          rw [visits_close]
          exact h i
        refine ⟨scan', (run_active hactive).trans hrun, hhalf, ?_⟩
        rw [hloops, hclose, List.filter_cons_of_pos (by simpa using htk), List.map_cons,
          List.append_assoc, List.singleton_append]
      · have hdone : scan.visits[t]? = some .done := by rw [h t, if_neg (by omega), if_pos ht]
        obtain ⟨scan', hrun, hhalf, hloops⟩ := ih hslots scan h
        refine ⟨scan', (run_done hdone).trans hrun, hhalf, ?_⟩
        rw [hloops, List.filter_cons_of_neg (by simpa using htk)]

/-- **From a node that has just been entered the search runs to the end of the code and back**, and finds
the loops that the nodes from there on close, those of the last node first. -/
lemma run_back (hg : g.AsBuilt) (n : Nat) :
    ∀ k scan rest, k + 1 + n = g.size → Halfway g scan (k + 1) .fresh →
      ∃ scan', run g scan (⟨k, g.successors k⟩ :: rest) = run g scan' rest ∧
        Halfway g scan' k .done ∧
        scan'.loops.toList
          = scan.loops.toList ++ (List.range' k (n + 1)).reverse.flatMap g.loopsAt := by
  have hlt : ∀ k, ∀ t ∈ g.successors k, t < g.size := fun k t => hg.closed.lt_of_mem_successors
  -- the induction is on the number of nodes behind the one entered
  induction n with
  | zero =>
      intro k scan rest hend h
      have hturn : Halfway g scan (k + 1) .done := hend ▸ (hend.symm ▸ h : Halfway g scan g.size _).turn
      obtain ⟨scan', hrun, hhalf, hloops⟩ := run_slots hg (by omega) rest (hlt k) scan hturn
      exact ⟨scan', hrun, hhalf, by simpa [Graph.loopsAt] using hloops⟩
  | succ n ih =>
      intro k scan rest hend h
      obtain ⟨others, hothers⟩ := hg.successors_eq_cons (show k + 1 < g.size by omega)
      have hfresh : scan.visits[k + 1]? = some .fresh := by
        rw [h (k + 1), if_neg (by omega), if_pos (by omega)]
      obtain ⟨mid, hmid, hhalf, hloops⟩ := ih (k + 1) (scan.enter (k + 1)) (⟨k, others⟩ :: rest)
        (by omega) (h.enter (by omega))
      obtain ⟨scan', hrun, hhalf', hloops'⟩ := run_slots hg (by omega) rest
        (fun t ht => hlt k t (hothers ▸ List.mem_cons_of_mem _ ht)) mid hhalf
      refine ⟨scan', ?_, hhalf', ?_⟩
      · rw [hothers, run_fresh hfresh, hmid, hrun]
      · have hat : g.loopsAt k = (others.filter (· ≤ k)).map (g.loopBack k) := by
          rw [Graph.loopsAt, hothers, List.filter_cons_of_neg (by simp)]
        have hrange : List.range' k (n + 1 + 1) = k :: List.range' (k + 1) (n + 1) := List.range'_succ
        rw [hloops', hloops, hrange, List.reverse_cons, List.flatMap_append, List.flatMap_singleton,
          hat, List.append_assoc]
        rfl

lemma halfway_start (g : Graph) : Halfway g (start g) 0 .fresh := by
  intro i
  simp [start, Array.getElem?_replicate]

end Scan

/-! ## All loops -/

namespace Graph

variable {g : Graph} {instructions : Array Instruction} {i t : Nat}

/-- The entry leads through the code to every node. -/
lemma AsBuilt.reaches (h : g.AsBuilt) (hi : i < g.size) : Reaches g.successors g.entry i := by
  induction i with
  | zero => exact .refl _ _
  | succ i ih => exact (ih (Nat.lt_of_succ_lt hi)).tail (following?_mem_successors (h.following?_eq hi))

/-- **One search finds all loops**, since the entry reaches every node. -/
lemma AsBuilt.loops_eq (h : g.AsBuilt) (hsize : 0 < g.size) :
    g.loops = .ok (g.ids.reverse.flatMap g.loopsAt) := by
  obtain ⟨first, others, hfirst, hloops, _, hothers, hheader⟩ := h.closed.loops_eq hsize
  have hnil : others = [] := by
    rw [List.eq_nil_iff_forall_not_mem]
    exact fun l hl => hothers l hl (h.reaches (hheader l (List.mem_append_right _ hl)).1)
  obtain ⟨scan, hrun, _, hfound⟩ := Scan.run_back h (g.size - 1) 0 _ []
    (by omega) ((Scan.halfway_start g).enter hsize)
  have hscan : first = scan := by
    have hboth := hfirst.symm.trans hrun
    rw [Scan.run] at hboth
    exact Except.ok.inj hboth
  rw [hloops, hnil, List.append_nil, hscan, hfound, Nat.sub_add_cancel hsize, ids, List.range_eq_range']
  rfl

/-- The target of an unconditional jump is read off the list. -/
lemma bound?_of_build (h : build instructions = .ok g) (id : Nat) :
    g.bound? id = if (instructions[id]?).any (·.opcode = .jump) then staticTarget? instructions id
      else none := by
  have hbefore : g.instructionBefore? id = before? instructions id := by
    cases id with
    | zero => rfl
    | succ id => exact instruction?_of_build h id
  rw [bound?, staticTarget?, instruction?_of_build h, hbefore]
  cases instructions[id]? with
  | none => rfl
  | some i =>
      simp only [Option.bind_some, Option.any_some, decide_eq_true_eq]
      split_ifs with hjump hisJump
      · rfl
      · exact absurd (by rw [hjump]; decide) hisJump
      · rfl

/-- **The loop that the branch of a node closes.** -/
structure ClosedAt (instructions : Array Instruction) (g : Graph) (l : Loop) (i : Nat) : Prop where
  branch : g.branch? i = some l.header
  header_le : l.header ≤ i
  nodes : l.nodes = List.range' l.header (i + 1 - l.header)
  bounds : l.bounds = (l.nodes.filter fun p => (instructions[p]?).any (·.opcode = .jump)).filterMap
    (staticTarget? instructions)
  target_mem : (instructions[i]?).any (·.opcode = .jump) → ∃ j, instructions[l.header]? = some j ∧
    j.offset ∈ l.bounds

lemma closedAt_loopBack (h : build instructions = .ok g) (hbranch : g.branch? i = some t)
    (hti : t ≤ i) : ClosedAt instructions g (g.loopBack i t) i := by
  have hbounds : (g.loopBack i t).bounds = ((g.loopBack i t).nodes.filter
      fun p => (instructions[p]?).any (·.opcode = .jump)).filterMap (staticTarget? instructions) := by
    rw [List.filterMap_filter]
    exact List.filterMap_congr fun p _ => bound?_of_build h p
  refine ⟨hbranch, hti, rfl, hbounds, fun hjump => ?_⟩
  obtain ⟨j, hj, htarget⟩ := (branch?_eq_some_iff h).mp hbranch
  refine ⟨j, hj, ?_⟩
  rw [hbounds, List.mem_filterMap]
  refine ⟨i, List.mem_filter.mpr ⟨?_, hjump⟩, htarget⟩
  simp only [loopBack, loopOf, List.mem_range'_1]
  omega

/-- Whether the branch of a node does not lead forward. -/
def branchesBack (g : Graph) (i : Nat) : Bool :=
  (g.branch? i).any (· ≤ i)

lemma branchesBack_iff : g.branchesBack i = true ↔ ∃ t ∈ g.branch? i, t ≤ i := by
  simp [branchesBack, Option.any_eq_true]

lemma lt_size_of_branch? (h : g.branch? i = some t) : i < g.size := by
  obtain ⟨node, hnode, _⟩ := Option.bind_eq_some_iff.mp h
  exact lt_size_of_eq_some hnode

lemma forall₂_closedAt (h : build instructions = .ok g) (ids : List Nat) :
    List.Forall₂ (ClosedAt instructions g) (ids.flatMap g.loopsAt) (ids.filter g.branchesBack) := by
  induction ids with
  | nil => exact .nil
  | cons i ids ih =>
      rw [List.flatMap_cons, loopsAt, (asBuilt_of_build h).filter_successors]
      cases hbranch : g.branch? i with
      | none => simpa [branchesBack, hbranch] using ih
      | some t =>
          by_cases hti : t ≤ i
          · simpa [branchesBack, hbranch, hti] using ⟨closedAt_loopBack h hbranch hti, ih⟩
          · simpa [branchesBack, hbranch, hti] using ih

/-- **The loops of a graph as it was built.**  There is one for each node whose branch does not lead
forward, the last node first.  It consists of the nodes from the target of the branch up to the node,
and its bounds are the static targets of the unconditional jumps among them. -/
theorem loops_of_build (instructions : Array Instruction) (g : Graph)
    (h : build instructions = .ok g) :
    ∃ loops sources, g.loops = .ok loops ∧ sources.Pairwise (· > ·) ∧
      (∀ i, i ∈ sources ↔ ∃ t ∈ g.branch? i, t ≤ i) ∧
      List.Forall₂ (ClosedAt instructions g) loops sources := by
  obtain ⟨hsome, _, _⟩ := build_eq_ok_iff.mp h
  have hsize : 0 < g.size := by
    rw [size_of_build h]
    exact Array.size_pos_iff.mpr hsome
  refine ⟨_, g.ids.reverse.filter g.branchesBack, (asBuilt_of_build h).loops_eq hsize, ?_, fun i => ?_,
    forall₂_closedAt h _⟩
  · exact (List.pairwise_reverse.mpr List.pairwise_lt_range).filter _
  · rw [List.mem_filter, branchesBack_iff, and_iff_right_iff_imp]
    rintro ⟨t, ht, _⟩
    exact List.mem_reverse.mpr (List.mem_range.mpr (lt_size_of_branch? ht))

/-- A loop around a call that holds a smaller one, and a branch forward behind it. -/
def nestedLoops : Array Instruction :=
  #[⟨0, .jumpdest, []⟩, ⟨1, .call, []⟩, ⟨2, .jumpdest, []⟩, ⟨3, ⟨0x60⟩, [0x02]⟩, ⟨5, .jumpi, []⟩,
    ⟨6, ⟨0x60⟩, [0x00]⟩, ⟨8, .jump, []⟩, ⟨9, ⟨0x60⟩, [0x0c]⟩, ⟨11, .jumpi, []⟩, ⟨12, .stop, []⟩]

/-- The outer loop is found first, and the branch forward closes none. -/
theorem loops_of_build_nested :
    ∃ g outer inner, build nestedLoops = .ok g ∧ g.loops = .ok [outer, inner] ∧
      ClosedAt nestedLoops g outer 6 ∧ ClosedAt nestedLoops g inner 4 ∧ g.branch? 8 = some 9 := by
  have hbuild : build nestedLoops = .ok ⟨nestedLoops.mapIdx (nodeOf nestedLoops)⟩ :=
    build_eq_ok_iff.mpr ⟨by simp [nestedLoops], by simp [Ascending, nestedLoops], rfl⟩
  have hback : ∀ i < 10, (∃ t ∈ branch? ⟨nestedLoops.mapIdx (nodeOf nestedLoops)⟩ i, t ≤ i) ↔
      i ∈ [6, 4] := by decide +kernel
  obtain ⟨loops, sources, hloops, hdescending, hmem, hclosed⟩ := loops_of_build nestedLoops _ hbuild
  have hsources : sources = [6, 4] := by
    refine hdescending.eq_of_mem_iff (by decide) fun i => ?_
    rw [hmem]
    constructor
    · rintro ⟨t, ht, hti⟩
      exact (hback i (lt_size_of_branch? ht)).mp ⟨t, ht, hti⟩
    · exact fun hi => (hback i (by simp at hi; omega)).mpr hi
  rw [hsources] at hclosed
  obtain ⟨outer, others, houter, hothers, rfl⟩ := List.forall₂_cons_right_iff.mp hclosed
  obtain ⟨inner, rest, hinner, hrest, rfl⟩ := List.forall₂_cons_right_iff.mp hothers
  obtain rfl := List.forall₂_nil_right_iff.mp hrest
  exact ⟨_, outer, inner, hbuild, hloops, houter, hinner, by cbv⟩

end Graph

end BytecodeFlow
