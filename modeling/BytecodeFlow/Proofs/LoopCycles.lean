import Mathlib
import BytecodeFlow.Proofs.LoopSearch

/-!
# Every loop that is reported is a cycle, and is reported once

`Graph.loops` reports a loop for an edge back to a node that the search is still inside of, if the
code leads on from there to the source of the edge.  This file shows that what is reported is a cycle
of the graph, and that no edge slot is reported twice.

**Bodies.**  A way through the code starts at the header, follows the code, and ends at the source of
the edge (`head?_of_chainWithin`, `isChain_of_chainWithin`, `getLast?_of_chainWithin`).  The way out is
the first successor outside of it (`wayOut?_eq_some_iff`).

**Steps.**  `Scan.Step` lists what one step of a search can do.  `Scan.Kept` is what has to be shown of
a property for it to hold when all searches are over, which `Scan.Kept.loops` says once and for all.

**The account.**  For each pair of a node and a header, the loops reported so far and the slots that
are still to be tried are counted together.  A step keeps that sum, or loses a slot that closes no
loop (`Scan.Step.account`).  No loop is counted before the first search and no slot is left behind the
last one, so there are no more loops than slots.
-/

namespace BytecodeFlow

/-! ## Bodies -/

namespace Graph

variable {g : Graph} {n header tail exit u s : Nat} {body : List Nat}

/-- The body starts at the header. -/
lemma head?_of_chainWithin (h : g.chainWithin n header tail = some body) :
    body.head? = some header := by
  cases n with
  | zero => simp [chainWithin] at h
  | succ n =>
      rcases chainWithin_eq_some_iff.mp h with ⟨rfl, rfl⟩ | ⟨_, following, rest, _, _, rfl⟩
      · rfl
      · rfl

/-- The body ends at the source of the edge back. -/
lemma getLast?_of_chainWithin (h : g.chainWithin n header tail = some body) :
    body.getLast? = some tail := by
  induction n generalizing header body with
  | zero => simp [chainWithin] at h
  | succ n ih =>
      rcases chainWithin_eq_some_iff.mp h with ⟨rfl, rfl⟩ | ⟨_, following, rest, _, hrest, rfl⟩
      · rfl
      · simp [List.getLast?_cons, ih hrest]

/-- The body follows the code. -/
lemma isChain_of_chainWithin (h : g.chainWithin n header tail = some body) :
    body.IsChain fun a b => g.following? a = some b := by
  induction n generalizing header body with
  | zero => simp [chainWithin] at h
  | succ n ih =>
      rcases chainWithin_eq_some_iff.mp h with ⟨rfl, rfl⟩ | ⟨_, following, rest, hnext, hrest, rfl⟩
      · exact .singleton _
      · obtain ⟨rest, rfl⟩ := List.head?_eq_some_iff.mp (head?_of_chainWithin hrest)
        exact List.isChain_cons_cons.mpr ⟨hnext, ih hrest⟩

lemma reaches_of_chainWithin (h : g.chainWithin n header tail = some body) :
    Reaches g.successors header tail := by
  induction n generalizing header body with
  | zero => simp [chainWithin] at h
  | succ n ih =>
      rcases chainWithin_eq_some_iff.mp h with ⟨rfl, _⟩ | ⟨_, following, rest, hnext, hrest, _⟩
      · exact .refl _ _
      · exact .head (following?_mem_successors hnext) (ih hrest)

/-- The way out is the first successor outside of the body. -/
lemma wayOut?_eq_some_iff :
    g.wayOut? body = some exit ↔ ∃ before after,
      body.flatMap g.successors = before ++ exit :: after ∧ exit ∉ body ∧ ∀ x ∈ before, x ∈ body := by
  rw [wayOut?_eq_find?, List.find?_eq_some_iff_append]
  simp only [decide_eq_true_eq, Bool.not_eq_true', decide_eq_false_iff_not, not_not]
  constructor
  · rintro ⟨hout, before, after, heq, hbefore⟩
    exact ⟨before, after, heq, hout, hbefore⟩
  · rintro ⟨before, after, heq, hout, hbefore⟩
    exact ⟨hout, before, after, heq, hbefore⟩

/-- There is no way out if all successors are inside. -/
lemma wayOut?_eq_none_iff :
    g.wayOut? body = none ↔ ∀ id ∈ body, ∀ x ∈ g.successors id, x ∈ body := by
  rw [wayOut?_eq_find?, List.find?_eq_none]
  simp only [List.mem_flatMap, decide_eq_true_eq, not_not]
  exact ⟨fun h id hid x hx => h x ⟨id, hid, hx⟩, fun h x ⟨id, hid, hx⟩ => h id hid x hx⟩

/-- The slots of a node that lead to another one. -/
def slotsTo (g : Graph) (u s : Nat) : List EdgeKind :=
  EdgeKind.all.filter fun kind => (g.nodes[u]?).bind (·.edge kind) = some s

/-- A node occurs among the successors once for every slot. -/
lemma length_slotsTo (g : Graph) (u s : Nat) : (g.slotsTo u s).length = (g.successors u).count s := by
  unfold slotsTo successors
  cases g.nodes[u]? with
  | none => simp
  | some node =>
      simp only [Node.targets, List.count_filterMap, List.countP_eq_length_filter]
      exact congrArg List.length (List.filter_congr fun kind _ => (beq_eq_decide _ _).symm)

/-- **A loop that is a cycle**: its body follows the code from the header on, without repetition, up to
a node with a slot that leads back to the header; and its way out is the first successor outside of
it, in the order of the body and of the slots. -/
structure IsCycle (g : Graph) (l : Loop) : Prop where
  nonempty : l.nodes ≠ []
  nodup : l.nodes.Nodup
  starts : l.nodes.head? = some l.header
  follows : l.nodes.IsChain fun a b => g.following? a = some b
  returns : ∃ last, l.nodes.getLast? = some last ∧ g.slotsTo last l.header ≠ []
  exit_eq_some : ∀ exit, l.exit = some exit ↔ ∃ before after,
    l.nodes.flatMap g.successors = before ++ exit :: after ∧ exit ∉ l.nodes ∧
      ∀ x ∈ before, x ∈ l.nodes
  exit_eq_none : l.exit = none ↔ ∀ id ∈ l.nodes, ∀ x ∈ g.successors id, x ∈ l.nodes

/-- Whether no edge leads back to where a walk along it could have come from. -/
def Acyclic (g : Graph) : Prop :=
  ∀ a b, b ∈ g.successors a → ¬Reaches g.successors b a

end Graph

/-- Whether a loop is closed by an edge from `u` to `s`. -/
def Loop.closedBy (l : Loop) (u s : Nat) : Bool :=
  l.header = s && l.nodes.getLast? = some u

/-- A loop tells the edge that closes it. -/
lemma Graph.closedBy_loopOf {g : Graph} {n header tail u s : Nat} {body : List Nat}
    (h : g.chainWithin n header tail = some body) :
    (g.loopOf header body).closedBy u s = true ↔ header = s ∧ tail = u := by
  simp only [Loop.closedBy, Bool.and_eq_true, decide_eq_true_eq]
  simp [loopOf, getLast?_of_chainWithin h]

/-! ## Steps -/

namespace Scan

variable {g : Graph} {scan scan' : Scan} {frames frames' rest : List Frame} {u s : Nat}
  {P : Scan → List Frame → Prop}

/-- **One step of a search.** -/
inductive Step (g : Graph) : Scan → List Frame → Scan → List Frame → Prop where
  | leave {scan : Scan} {node : Nat} {rest : List Frame} :
      Step g scan (⟨node, []⟩ :: rest) (scan.leave node) rest
  | enter {scan : Scan} {node id : Nat} {left : List Nat} {rest : List Frame} :
      scan.visits[id]? = some .fresh →
      Step g scan (⟨node, id :: left⟩ :: rest) (scan.enter id)
        (⟨id, g.successors id⟩ :: ⟨node, left⟩ :: rest)
  | close {scan : Scan} {node id : Nat} {left : List Nat} {rest : List Frame} :
      scan.visits[id]? = some .active →
      Step g scan (⟨node, id :: left⟩ :: rest) (scan.close g id node) (⟨node, left⟩ :: rest)
  | pass {scan : Scan} {node id : Nat} {left : List Nat} {rest : List Frame} :
      scan.visits[id]? = some .done →
      Step g scan (⟨node, id :: left⟩ :: rest) scan (⟨node, left⟩ :: rest)

/-- The invariant of the search, and that the nodes on its stack have not been left. -/
structure Stacked (g : Graph) (scan : Scan) (frames : List Frame) : Prop where
  covers : Covers g scan frames
  active : ∀ frame ∈ frames, scan.visits[frame.node]? = some .active
  nodup : (frames.map Frame.node).Nodup

namespace Stacked

lemma start (g : Graph) : Stacked g (start g) [] :=
  ⟨covers_start g, by simp, by simp⟩

/-- A fresh node that is entered is on the stack for the first time. -/
lemma enter {id : Nat} (h : Stacked g scan frames) (hid : scan.visits[id]? = some .fresh) :
    Stacked g (scan.enter id) (⟨id, g.successors id⟩ :: frames) := by
  have hlt := (Array.getElem?_eq_some_iff.mp hid).1
  have hnew : id ∉ frames.map Frame.node := by
    intro hmem
    obtain ⟨frame, hframe, rfl⟩ := List.mem_map.mp hmem
    simp [h.active frame hframe] at hid
  refine ⟨h.covers.enter hid, fun frame hframe => ?_, List.nodup_cons.mpr ⟨hnew, h.nodup⟩⟩
  rw [getElem?_visits_enter _ _ _ hlt]
  rcases List.mem_cons.mp hframe with rfl | hframe
  · rw [if_pos rfl]
  · rw [if_neg, h.active frame hframe]
    exact fun heq => hnew (heq ▸ List.mem_map_of_mem hframe)

lemma drop {node id : Nat} {left : List Nat} (above : List Frame)
    (h : Stacked g scan (above ++ ⟨node, id :: left⟩ :: rest))
    (hid : scan.visits[id]? ≠ some .fresh) : Stacked g scan (above ++ ⟨node, left⟩ :: rest) := by
  refine ⟨h.covers.drop above hid, fun frame hframe => ?_, by simpa using h.nodup⟩
  rcases List.mem_append.mp hframe with hframe | hframe
  · exact h.active frame (List.mem_append_left _ hframe)
  · rcases List.mem_cons.mp hframe with rfl | hframe
    · exact h.active ⟨node, id :: left⟩ (by simp)
    · exact h.active frame (by simp [hframe])

lemma leave {node : Nat} (h : Stacked g scan (⟨node, []⟩ :: rest)) :
    Stacked g (scan.leave node) rest := by
  have hlt : node < scan.visits.size := h.covers.size_eq ▸ h.covers.node_lt _ List.mem_cons_self
  have hnodup := List.nodup_cons.mp h.nodup
  refine ⟨h.covers.leave, fun frame hframe => ?_, hnodup.2⟩
  rw [getElem?_visits_leave _ _ _ hlt, if_neg, h.active frame (List.mem_cons_of_mem _ hframe)]
  exact fun heq => hnodup.1 (List.mem_map.mpr ⟨frame, hframe, heq⟩)

/-- **A step keeps the invariant.** -/
lemma step (h : Stacked g scan frames) (hstep : Step g scan frames scan' frames') :
    Stacked g scan' frames' := by
  cases hstep with
  | leave => exact h.leave
  | @enter node id left rest hid =>
      have hnow : (scan.enter id).visits[id]? ≠ some .fresh := by
        simp [getElem?_visits_enter _ _ _ (Array.getElem?_eq_some_iff.mp hid).1]
      exact (h.enter hid).drop [_] hnow
  | close hid =>
      have hdrop := h.drop [] (by simp [hid])
      exact ⟨hdrop.covers.close, by simpa [visits_close] using hdrop.active, hdrop.nodup⟩
  | pass hid => exact h.drop [] (by simp [hid])

end Stacked

/-- Every step keeps what has been visited and found. -/
lemma Step.extends (hstep : Step g scan frames scan' frames') (h : Stacked g scan frames) :
    Extends g scan scan' := by
  cases hstep with
  | leave => exact .leave (h.covers.size_eq ▸ h.covers.node_lt _ List.mem_cons_self)
  | enter hid => exact .enter hid
  | close hid => exact .close hid
  | pass => exact .refl g scan

/-- **What has to be shown of a property of the search** for it to hold when all searches are over: it
holds at the start, when a search begins, and after every step.  The first search begins at the entry,
so that the entry is visited when another one begins. -/
structure Kept (g : Graph) (P : Scan → List Frame → Prop) : Prop where
  start : P (start g) []
  root : ∀ {scan : Scan} {root : Nat}, Stacked g scan [] → scan.visits[root]? = some .fresh →
    (root = g.entry ∨ scan.visits[g.entry]? ≠ some .fresh) → P scan [] →
    P (scan.enter root) [⟨root, g.successors root⟩]
  step : ∀ {scan scan' : Scan} {frames frames' : List Frame}, Stacked g scan frames →
    Step g scan frames scan' frames' → P scan frames → P scan' frames'

namespace Kept

/-- **What every step keeps, a search keeps.** -/
lemma run (h : Kept g P) (hg : g.Closed) (hstack : Stacked g scan frames) (hP : P scan frames) :
    ∃ scan', Scan.run g scan frames = .ok scan' ∧ Stacked g scan' [] ∧ P scan' [] := by
  -- every branch of the search is one step, to which the two properties are carried over
  have hnext : ∀ {scan scan' : Scan} {frames frames' : List Frame},
      Step g scan frames scan' frames' → Stacked g scan frames → P scan frames →
        Stacked g scan' frames' ∧ P scan' frames' :=
    fun hstep hstack hP => ⟨hstack.step hstep, h.step hstack hstep hP⟩
  fun_induction Scan.run g scan frames with
  | case1 scan => exact ⟨scan, rfl, hstack, hP⟩
  | case2 scan node rest ih =>
      obtain ⟨hstack, hP⟩ := hnext .leave hstack hP
      exact ih hstack hP
  | case3 scan node id left rest hlt hv ih =>
      obtain ⟨hstack, hP⟩ := hnext (.enter (by rw [Array.getElem?_eq_getElem hlt, hv])) hstack hP
      exact ih hstack hP
  | case4 scan node id left rest hlt hv ih =>
      obtain ⟨hstack, hP⟩ := hnext (.close (by rw [Array.getElem?_eq_getElem hlt, hv])) hstack hP
      exact ih hstack hP
  | case5 scan node id left rest hlt hv ih =>
      obtain ⟨hstack, hP⟩ := hnext (.pass (by rw [Array.getElem?_eq_getElem hlt, hv])) hstack hP
      exact ih hstack hP
  | case6 scan node id left rest hlt =>
      have hmem := hstack.covers.left_sub _ List.mem_cons_self id List.mem_cons_self
      exact absurd (hstack.covers.size_eq ▸ hg.lt_of_mem_successors hmem) hlt

/-- A search from a root keeps it, whether or not the root has been visited. -/
lemma fromRoot (h : Kept g P) (hg : g.Closed) {root : Nat} (hstack : Stacked g scan [])
    (hroot : root = g.entry ∨ scan.visits[g.entry]? ≠ some .fresh) (hP : P scan []) :
    ∃ scan', Scan.fromRoot g scan root = .ok scan' ∧ Stacked g scan' [] ∧ P scan' [] ∧
      scan'.visits[root]? ≠ some .fresh ∧ Extends g scan scan' := by
  obtain ⟨scan', heq, hext, _⟩ := fromRoot_eq hg hstack.covers root
  by_cases hfresh : scan.visits[root]? = some .fresh
  · rw [Scan.fromRoot, if_pos hfresh] at heq
    obtain ⟨scan'', heq', hstack', hP'⟩ := h.run hg (hstack.enter hfresh) (h.root hstack hfresh hroot hP)
    obtain rfl : scan' = scan'' := Except.ok.inj (heq.symm.trans heq')
    obtain ⟨after, hafter, hext', _⟩ := run_eq hg (hstack.enter hfresh).covers
    obtain rfl : scan' = after := Except.ok.inj (heq.symm.trans hafter)
    refine ⟨scan', by rw [Scan.fromRoot, if_pos hfresh, heq], hstack', hP', ?_, hext⟩
    refine hext'.visited root ?_
    simp [getElem?_visits_enter _ _ _ (Array.getElem?_eq_some_iff.mp hfresh).1]
  · rw [Scan.fromRoot, if_neg hfresh] at heq
    obtain rfl := Except.ok.inj heq
    exact ⟨scan, by rw [Scan.fromRoot, if_neg hfresh], hstack, hP, hfresh, hext⟩

/-- The searches from a list of roots keep it, and visit them all. -/
lemma foldlM (h : Kept g P) (hg : g.Closed) (roots : List Nat) :
    ∀ scan, Stacked g scan [] → scan.visits[g.entry]? ≠ some .fresh → P scan [] →
      ∃ scan', roots.foldlM (Scan.fromRoot g) scan = .ok scan' ∧ Stacked g scan' [] ∧ P scan' [] ∧
        (∀ root ∈ roots, scan'.visits[root]? ≠ some .fresh) ∧ Extends g scan scan' := by
  induction roots with
  | nil => exact fun scan hstack _ hP => ⟨scan, rfl, hstack, hP, by simp, .refl g scan⟩
  | cons root roots ih =>
      intro scan hstack hentry hP
      obtain ⟨mid, hmid, hstack, hP, hroot, hext⟩ := h.fromRoot hg hstack (Or.inr hentry) hP
      obtain ⟨scan', heq, hstack, hP, hroots, hext'⟩ := ih mid hstack (hext.visited _ hentry) hP
      refine ⟨scan', by rw [List.foldlM_cons, hmid]; exact heq, hstack, hP, ?_, hext.trans hext'⟩
      simpa using ⟨hext'.visited root hroot, hroots⟩

/-- **What is kept holds when all searches are over**, and by then all nodes have been left. -/
lemma loops (h : Kept g P) (hg : g.Closed) :
    ∃ last : Scan, g.loops = .ok last.loops.toList ∧ P last [] ∧
      ∀ id < g.size, last.visits[id]? = some .done := by
  obtain ⟨first, hfirst, hstack, hP, hentry, _⟩ :=
    h.fromRoot hg (Stacked.start g) (Or.inl rfl) h.start
  obtain ⟨last, hlast, hstack, hP, hids, _⟩ := h.foldlM hg g.ids first hstack hentry hP
  refine ⟨last, ?_, hP, fun id hid => ?_⟩
  · have hfold : (g.entry :: g.ids).foldlM (Scan.fromRoot g) (Scan.start g) = .ok last := by
      rw [List.foldlM_cons, hfirst]
      exact hlast
    rw [Graph.loops]
    simp only [← Scan.start.eq_def, hfold]
    rfl
  · exact hstack.covers.done_of_visited hid (hids id (List.mem_range.mpr hid))

end Kept

/-! ## The account -/

/-- How many of the loops found so far an edge from `u` to `s` closes. -/
def tally (scan : Scan) (u s : Nat) : Nat :=
  scan.loops.toList.countP (·.closedBy u s)

/-- How many slots of `u` that lead to `s` are still to be tried: all of them while `u` is fresh, and
then those that are left on the stack. -/
def untried (g : Graph) (scan : Scan) (frames : List Frame) (u s : Nat) : Nat :=
  (if scan.visits[u]? = some .fresh then (g.successors u).count s else 0)
    + (frames.map fun frame => if frame.node = u then frame.left.count s else 0).sum

/-- An edge back is counted if the code leads along it. -/
lemma tally_close (scan : Scan) (header tail : Nat) :
    (scan.close g header tail).tally u s = scan.tally u s
      + if header = s ∧ tail = u ∧ (g.chain? s u).isSome then 1 else 0 := by
  unfold Scan.close
  cases hchain : g.chain? header tail with
  | none =>
      rw [if_neg]
      · rfl
      · rintro ⟨rfl, rfl, hsome⟩
        simp [hchain] at hsome
  | some body =>
      simp only [tally, Array.toList_push, List.countP_append, List.countP_singleton,
        Graph.closedBy_loopOf hchain]
      congr 1
      refine if_congr ⟨?_, fun h => ⟨h.1, h.2.1⟩⟩ rfl rfl
      rintro ⟨rfl, rfl⟩
      exact ⟨rfl, rfl, by simp [hchain]⟩

/-- Trying a slot takes it off the slots still to be tried. -/
lemma untried_cons (g : Graph) (scan : Scan) (node id : Nat) (left : List Nat) (rest : List Frame) :
    untried g scan (⟨node, id :: left⟩ :: rest) u s
      = untried g scan (⟨node, left⟩ :: rest) u s + if id = s ∧ node = u then 1 else 0 := by
  simp only [untried, List.map_cons, List.sum_cons, List.count_cons, beq_iff_eq]
  split_ifs <;> grind

/-- Entering a node moves its slots from the unvisited ones to the stack. -/
lemma untried_enter (frames : List Frame) {id : Nat} (hid : scan.visits[id]? = some .fresh) :
    untried g (scan.enter id) (⟨id, g.successors id⟩ :: frames) u s = untried g scan frames u s := by
  have hlt := (Array.getElem?_eq_some_iff.mp hid).1
  simp only [untried, List.map_cons, List.sum_cons, getElem?_visits_enter _ _ _ hlt]
  by_cases hu : u = id
  · subst hu
    simp [hid]
  · simp [hu, Ne.symm hu]

lemma untried_leave {node : Nat} (h : Stacked g scan (⟨node, []⟩ :: rest)) :
    untried g (scan.leave node) rest u s = untried g scan (⟨node, []⟩ :: rest) u s := by
  have hlt : node < scan.visits.size := h.covers.size_eq ▸ h.covers.node_lt _ List.mem_cons_self
  have hnode : scan.visits[node]? = some .active := h.active _ List.mem_cons_self
  simp only [untried, List.map_cons, List.sum_cons, getElem?_visits_leave _ _ _ hlt, List.count_nil,
    ite_self, Nat.zero_add]
  by_cases hu : u = node
  · subst hu
    simp [hnode]
  · simp [hu]

lemma untried_close (frames : List Frame) (header tail : Nat) :
    untried g (scan.close g header tail) frames u s = untried g scan frames u s := by
  rw [untried, untried, visits_close]

/-- **A step keeps the account**, but for a slot that is tried and closes no loop. -/
lemma Step.account (hstep : Step g scan frames scan' frames') (h : Stacked g scan frames)
    (u s : Nat) :
    scan'.tally u s + untried g scan' frames' u s = scan.tally u s + untried g scan frames u s ∨
      (∃ left rest, frames = ⟨u, s :: left⟩ :: rest ∧
        ¬(scan.visits[s]? = some .active ∧ (g.chain? s u).isSome)) ∧
      scan'.tally u s + untried g scan' frames' u s + 1
        = scan.tally u s + untried g scan frames u s := by
  cases hstep with
  | @leave node rest =>
      rw [untried_leave h]
      exact Or.inl rfl
  | @enter node id left rest hid =>
      rw [untried_enter _ hid, untried_cons]
      by_cases hslot : id = s ∧ node = u
      · obtain ⟨rfl, rfl⟩ := hslot
        exact Or.inr ⟨⟨left, rest, rfl, by simp [hid]⟩, by simp [tally, Scan.enter]; omega⟩
      · rw [if_neg hslot]
        exact Or.inl rfl
  | @close node id left rest hid =>
      rw [untried_close, tally_close, untried_cons]
      by_cases hslot : id = s ∧ node = u
      · obtain ⟨rfl, rfl⟩ := hslot
        by_cases hchain : (g.chain? id node).isSome
        · left
          simp only [hchain, and_self, if_true]
          omega
        · exact Or.inr ⟨⟨left, rest, rfl, by simp [hchain]⟩, by simp [hchain]; omega⟩
      · rw [if_neg hslot, if_neg fun h => hslot ⟨h.1, h.2.1⟩]
        exact Or.inl rfl
  | @pass node id left rest hid =>
      rw [untried_cons]
      by_cases hslot : id = s ∧ node = u
      · obtain ⟨rfl, rfl⟩ := hslot
        exact Or.inr ⟨⟨left, rest, rfl, by simp [hid]⟩, by simp; omega⟩
      · rw [if_neg hslot]
        exact Or.inl rfl

/-- Before the first search every slot is still to be tried. -/
lemma account_start (g : Graph) (u s : Nat) :
    (start g).tally u s + untried g (start g) [] u s = (g.successors u).count s := by
  rcases Nat.lt_or_ge u g.size with hu | hu
  · simp [tally, untried, start, hu]
  · simp [tally, untried, start, Nat.not_lt.mpr hu, Graph.successors_eq_nil hu]

lemma account_enter {root : Nat} (hroot : scan.visits[root]? = some .fresh) (u s : Nat) :
    (scan.enter root).tally u s + untried g (scan.enter root) [⟨root, g.successors root⟩] u s
      = scan.tally u s + untried g scan [] u s := by
  rw [untried_enter _ hroot]
  rfl

/-- The loops found so far are those of a header and of a node to which the code leads from it. -/
def Sound (g : Graph) (scan : Scan) : Prop :=
  ∀ l ∈ scan.loops.toList, ∃ tail body, g.chain? l.header tail = some body ∧ l = g.loopOf l.header body

lemma Sound.close (h : Sound g scan) (header tail : Nat) : Sound g (scan.close g header tail) := by
  unfold Scan.close
  cases hchain : g.chain? header tail with
  | none => exact h
  | some body =>
      intro l hl
      rcases List.mem_append.mp (Array.toList_push ▸ hl) with hl | hl
      · exact h l hl
      · obtain rfl : l = g.loopOf header body := by simpa using hl
        exact ⟨tail, body, hchain, rfl⟩

/-- **There are never more loops than slots that have been tried**, and all of them are sound. -/
lemma kept_account (g : Graph) :
    Kept g fun scan frames => Sound g scan ∧
      ∀ u s, scan.tally u s + untried g scan frames u s ≤ (g.successors u).count s where
  start := ⟨by simp [Sound, Scan.start], fun u s => (account_start g u s).le⟩
  root := by
    intro scan root _ hroot _ h
    exact ⟨h.1, fun u s => (account_enter hroot u s).trans_le (h.2 u s)⟩
  step := by
    intro scan scan' frames frames' hstack hstep h
    refine ⟨?_, fun u s => ?_⟩
    · cases hstep with
      | leave => exact h.1
      | enter => exact h.1
      | close => exact h.1.close _ _
      | pass => exact h.1
    · have := h.2 u s
      rcases hstep.account hstack u s with heq | ⟨_, heq⟩ <;> omega

end Scan

/-! ## The loops of a graph -/

namespace Graph

variable {g : Graph}

lemma slotsTo_ne_nil_iff {u s : Nat} : g.slotsTo u s ≠ [] ↔ s ∈ g.successors u := by
  rw [← List.length_pos_iff, length_slotsTo, List.count_pos_iff]

/-- **Every loop that is reported is a cycle, and no slot is reported twice.**  For any node and any
header there are no more loops from the header to the node than the node has slots that lead to the
header.  So a graph without cycles has no loops. -/
theorem loops_are_cycles (g : Graph) (hg : g.Closed) :
    ∃ loops, g.loops = .ok loops ∧ (∀ l ∈ loops, g.IsCycle l) ∧
      (∀ u s, loops.countP (·.closedBy u s) ≤ (g.slotsTo u s).length) ∧
      (g.Acyclic → loops = []) := by
  obtain ⟨last, hloops, ⟨hsound, haccount⟩, _⟩ := (Scan.kept_account g).loops hg
  have hcount : ∀ u s, last.loops.toList.countP (·.closedBy u s) ≤ (g.slotsTo u s).length := by
    intro u s
    rw [length_slotsTo]
    exact le_trans (Nat.le_add_right _ _) (haccount u s)
  have hcycle : ∀ l ∈ last.loops.toList, ∃ tail body, g.chain? l.header tail = some body ∧
      l = g.loopOf l.header body ∧ l.header ∈ g.successors tail := by
    intro l hl
    obtain ⟨tail, body, hchain, hbody⟩ := hsound l hl
    have hclosed : l.closedBy tail l.header = true := by
      rw [hbody, closedBy_loopOf hchain]
      exact ⟨rfl, rfl⟩
    have hpos : 0 < last.loops.toList.countP (·.closedBy tail l.header) :=
      List.countP_pos_iff.mpr ⟨l, hl, hclosed⟩
    have hslot : g.slotsTo tail l.header ≠ [] :=
      List.length_pos_iff.mp (hpos.trans_le (hcount tail l.header))
    exact ⟨tail, body, hchain, hbody, slotsTo_ne_nil_iff.mp hslot⟩
  refine ⟨_, hloops, fun l hl => ?_, hcount, fun hacyclic => ?_⟩
  · obtain ⟨tail, body, hchain, hbody, hback⟩ := hcycle l hl
    have hnodes : l.nodes = body := by rw [hbody]; rfl
    have hexit : l.exit = g.wayOut? l.nodes := by rw [hbody]; rfl
    refine ⟨?_, ?_, ?_, ?_, ?_, fun exit => ?_, ?_⟩
    · rw [hnodes]
      rintro rfl
      simpa using getLast?_of_chainWithin hchain
    · exact hnodes ▸ nodup_of_chainWithin hchain
    · exact hnodes ▸ head?_of_chainWithin hchain
    · exact hnodes ▸ isChain_of_chainWithin hchain
    · exact ⟨tail, hnodes ▸ getLast?_of_chainWithin hchain, slotsTo_ne_nil_iff.mpr hback⟩
    · rw [hexit, wayOut?_eq_some_iff]
    · rw [hexit, wayOut?_eq_none_iff]
  · rw [List.eq_nil_iff_forall_not_mem]
    intro l hl
    obtain ⟨tail, body, hchain, _, hback⟩ := hcycle l hl
    exact hacyclic tail l.header hback (reaches_of_chainWithin hchain)

/-- Two ways forward and none back. -/
def forked : Graph where
  nodes := #[
    ⟨⟨0, .jumpi, []⟩, some 1, some 2, none⟩,
    ⟨⟨1, .jumpdest, []⟩, some 2, none, none⟩,
    ⟨⟨2, .stop, []⟩, none, none, none⟩]

/-- All edges lead to nodes with greater numbers, so no walk comes back. -/
lemma acyclic_forked : forked.Acyclic := by
  intro a b hab hback
  have hforward : ∀ x < forked.size, ∀ y ∈ forked.successors x, x < y := by decide
  have hstep : ∀ x y, y ∈ forked.successors x → x < y :=
    fun x y hy => hforward x (lt_size_of_mem_successors hy) y hy
  have hle : b ≤ a := hback.preserves (P := (b ≤ ·)) le_rfl
    fun x hx y hy => hx.trans (hstep x y hy).le
  exact absurd (hstep a b hab) (Nat.not_lt.mpr hle)

/-- In the sample graph the branch back to the header is the only slot that can close the loop, which the
code leaves for the exit.  Nothing is reported where there are only ways forward. -/
theorem loops_are_cycles_sample :
    sample.Closed ∧ sample.loops = .ok [⟨1, some 5, [1, 3, 4], [], []⟩] ∧
      sample.IsCycle ⟨1, some 5, [1, 3, 4], [], []⟩ ∧ sample.slotsTo 4 1 = [.branch] ∧
      (∀ u s, [(⟨1, some 5, [1, 3, 4], [], []⟩ : Loop)].countP (·.closedBy u s)
        ≤ (sample.slotsTo u s).length) ∧
      forked.Closed ∧ forked.Acyclic ∧ forked.loops = .ok [] := by
  obtain ⟨loops, hloops, hcycle, hcount, _⟩ := loops_are_cycles sample (by decide)
  obtain ⟨none, hnone, _, _, hacyclic⟩ := loops_are_cycles forked (by decide)
  obtain rfl := Except.ok.inj (hloops.symm.trans loops_sample)
  refine ⟨by decide, hloops, hcycle _ List.mem_cons_self, by decide, hcount, by decide,
    acyclic_forked, ?_⟩
  rw [hnone, hacyclic acyclic_forked]

end Graph

end BytecodeFlow
