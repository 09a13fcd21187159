import Mathlib
import BytecodeFlow.Graph.Loop
import BytecodeFlow.Proofs.Edges
import BytecodeFlow.Proofs.Walk

/-!
# The search for loops

`Graph.loops` searches from the entry and then from every node that has not been visited.  This file
says what such a search visits and which loops it can add.

**Ways through the code.**  `Graph.chain?` allows as many nodes as the graph has.  More would not
help (`chainWithin_eq_chain?`): the way to the first occurrence of a node never visits a node twice.

**One search.**  `Scan.Extends` says how the state of the search can change: visited nodes stay
visited, nodes that have been left stay left, and a loop is added only with a header that had not
been left.  `Scan.Covers` is the invariant: the nodes that are visited and not left are on the stack,
and the successors of a visited node are visited or still to be tried.  Every step keeps it, so a
search that ends has left all nodes that its root reaches (`Covers.done_of_reaches`).

**All searches.**  `Closed.loops_eq` separates the search from the entry from those after it, whose
loops have headers that the entry does not reach.
-/

namespace BytecodeFlow

/-! ## Ways through the code -/

namespace Graph

variable {g : Graph} {n m header tail : Nat} {chain : List Nat}

/-- Following the code is going along an edge. -/
lemma following?_mem_successors {id following : Nat} (h : g.following? id = some following) :
    following ∈ g.successors id := by
  obtain ⟨node, hnode, hnext⟩ := Option.bind_eq_some_iff.mp h
  exact mem_successors.mpr ⟨node, .next, hnode, hnext⟩

/-- A way through the code ends at its header, or goes on from it. -/
lemma chainWithin_eq_some_iff :
    g.chainWithin (n + 1) header tail = some chain ↔
      header = tail ∧ chain = [tail] ∨
        header ≠ tail ∧ ∃ following rest, g.following? header = some following ∧
          g.chainWithin n following tail = some rest ∧ chain = header :: rest := by
  rw [chainWithin]
  split_ifs with h
  · simp [h, eq_comm]
  · simp only [h, false_and, false_or, ne_eq, not_false_eq_true, true_and, Option.bind_eq_some_iff,
      Option.map_eq_some_iff]
    constructor
    · rintro ⟨following, hnext, rest, hrest, rfl⟩
      exact ⟨following, rest, hnext, hrest, rfl⟩
    · rintro ⟨following, rest, hnext, hrest, rfl⟩
      exact ⟨following, hnext, rest, hrest, rfl⟩

/-- Allowing more nodes does not change a way that was found. -/
lemma chainWithin_mono (h : g.chainWithin n header tail = some chain) (hnm : n ≤ m) :
    g.chainWithin m header tail = some chain := by
  induction n generalizing header chain m with
  | zero => simp [chainWithin] at h
  | succ n ih =>
      obtain ⟨m, rfl⟩ : ∃ k, m = k + 1 := ⟨m - 1, by omega⟩
      rw [chainWithin_eq_some_iff] at h ⊢
      refine h.imp_right ?_
      rintro ⟨hne, following, rest, hnext, hrest, rfl⟩
      exact ⟨hne, following, rest, hnext, ih hrest (by omega), rfl⟩

/-- A way is found with as many steps as it has nodes. -/
lemma chainWithin_length (h : g.chainWithin n header tail = some chain) :
    g.chainWithin chain.length header tail = some chain := by
  induction n generalizing header chain with
  | zero => simp [chainWithin] at h
  | succ n ih =>
      rcases chainWithin_eq_some_iff.mp h with ⟨rfl, rfl⟩ | ⟨hne, following, rest, hnext, hrest, rfl⟩
      · simp [chainWithin]
      · rw [List.length_cons, chainWithin_eq_some_iff]
        exact Or.inr ⟨hne, following, rest, hnext, ih hrest, rfl⟩

/-- From every node of a way the rest of it is the way from there. -/
lemma exists_chain_of_mem {x : Nat} (h : g.chainWithin n header tail = some chain) (hx : x ∈ chain) :
    ∃ rest, g.chainWithin n x tail = some rest ∧ rest.length ≤ chain.length := by
  induction n generalizing header chain with
  | zero => simp [chainWithin] at h
  | succ n ih =>
      rcases chainWithin_eq_some_iff.mp h with ⟨rfl, rfl⟩ | ⟨_, following, rest, _, hrest, rfl⟩
      · obtain rfl : x = header := by simpa using hx
        exact ⟨[x], h, Nat.le_refl _⟩
      · rcases List.mem_cons.mp hx with rfl | hx
        · exact ⟨x :: rest, h, Nat.le_refl _⟩
        · obtain ⟨short, hshort, hlen⟩ := ih hrest hx
          exact ⟨short, chainWithin_mono hshort (Nat.le_succ n), by simp; omega⟩

/-- **The way to the first occurrence of a node visits no node twice.** -/
lemma nodup_of_chainWithin (h : g.chainWithin n header tail = some chain) : chain.Nodup := by
  induction n generalizing header chain with
  | zero => simp [chainWithin] at h
  | succ n ih =>
      rcases chainWithin_eq_some_iff.mp h with ⟨rfl, rfl⟩ | ⟨_, following, rest, _, hrest, rfl⟩
      · simp
      · refine List.nodup_cons.mpr ⟨fun hmem => ?_, ih hrest⟩
        -- coming back to the header, the way would be the same again, and shorter
        obtain ⟨short, hshort, hlen⟩ := exists_chain_of_mem hrest hmem
        rw [chainWithin_mono hshort (Nat.le_succ n), Option.some_inj] at h
        rw [h, List.length_cons] at hlen
        omega

/-- A way through the code stays in a closed graph. -/
lemma Closed.lt_of_mem_chain (hg : g.Closed) (hheader : header < g.size)
    (h : g.chainWithin n header tail = some chain) : ∀ x ∈ chain, x < g.size := by
  induction n generalizing header chain with
  | zero => simp [chainWithin] at h
  | succ n ih =>
      rcases chainWithin_eq_some_iff.mp h with ⟨rfl, rfl⟩ | ⟨_, following, rest, hnext, hrest, rfl⟩
      · simpa using hheader
      · have hlt := hg.lt_of_mem_successors (following?_mem_successors hnext)
        simpa [hheader] using ih hlt hrest

/-- **A way needs no more nodes than the graph has.** -/
lemma Closed.chainWithin_eq_chain? (hg : g.Closed) (hheader : header < g.size) (hn : g.size ≤ n)
    (tail : Nat) : g.chainWithin n header tail = g.chain? header tail := by
  cases hchain : g.chainWithin n header tail with
  | none =>
      rw [eq_comm, chain?, Option.eq_none_iff_forall_ne_some]
      intro chain h
      rw [chainWithin_mono h hn] at hchain
      exact Option.some_ne_none _ hchain
  | some chain =>
      have hsub : chain.Subperm (List.range g.size) := by
        refine (nodup_of_chainWithin hchain).subperm fun x hx => ?_
        exact List.mem_range.mpr (hg.lt_of_mem_chain hheader hchain x hx)
      have hlen : chain.length ≤ g.size := by simpa using hsub.length_le
      exact (chainWithin_mono (chainWithin_length hchain) hlen).symm

/-- The way out of a body does not depend on how membership in the body is looked up. -/
lemma wayOut?_eq_find? (g : Graph) (body : List Nat) :
    g.wayOut? body = (body.flatMap g.successors).find? fun id => id ∉ body := by
  simp [wayOut?]

/-- The way out of a loop leads to a node, being a successor. -/
lemma Closed.exit_loopOf_lt (hg : g.Closed) {body : List Nat} {exit : Nat}
    (h : exit ∈ (g.loopOf header body).exit) : exit < g.size := by
  obtain ⟨id, _, hid⟩ := List.mem_flatMap.mp (List.mem_of_find?_eq_some h)
  exact hg.lt_of_mem_successors hid

end Graph

/-! ## One search -/

namespace Scan

variable {g : Graph} {scan scan' scan'' : Scan} {id node : Nat} {left : List Nat}
  {frames rest : List Frame}

lemma getElem?_visits_enter (scan : Scan) (id i : Nat) (h : id < scan.visits.size) :
    (scan.enter id).visits[i]? = if i = id then some .active else scan.visits[i]? := by
  simp only [enter, Array.getElem?_setIfInBounds, h, if_true, eq_comm]

lemma getElem?_visits_leave (scan : Scan) (id i : Nat) (h : id < scan.visits.size) :
    (scan.leave id).visits[i]? = if i = id then some .done else scan.visits[i]? := by
  simp only [leave, Array.getElem?_setIfInBounds, h, if_true, eq_comm]

/-! ### Steps -/

/-- A node is left when nothing is left to try. -/
lemma run_leave (g : Graph) (scan : Scan) (node : Nat) (rest : List Frame) :
    run g scan (⟨node, []⟩ :: rest) = run g (scan.leave node) rest := by
  rw [run]

/-- A successor that has not been visited is entered. -/
lemma run_fresh (h : scan.visits[id]? = some .fresh) :
    run g scan (⟨node, id :: left⟩ :: rest)
      = run g (scan.enter id) (⟨id, g.successors id⟩ :: ⟨node, left⟩ :: rest) := by
  obtain ⟨hlt, hv⟩ := Array.getElem?_eq_some_iff.mp h
  rw [run, dif_pos hlt]
  split <;> simp_all

/-- An edge back to a node that the search is inside of closes a loop. -/
lemma run_active (h : scan.visits[id]? = some .active) :
    run g scan (⟨node, id :: left⟩ :: rest) = run g (scan.close g id node) (⟨node, left⟩ :: rest) := by
  obtain ⟨hlt, hv⟩ := Array.getElem?_eq_some_iff.mp h
  rw [run, dif_pos hlt]
  split <;> simp_all

/-- A node that was left is passed by. -/
lemma run_done (h : scan.visits[id]? = some .done) :
    run g scan (⟨node, id :: left⟩ :: rest) = run g scan (⟨node, left⟩ :: rest) := by
  obtain ⟨hlt, hv⟩ := Array.getElem?_eq_some_iff.mp h
  rw [run, dif_pos hlt]
  split <;> simp_all

/-! ### How the state changes -/

/-- **How a search can change its state.** -/
structure Extends (g : Graph) (scan scan' : Scan) : Prop where
  size_eq : scan'.visits.size = scan.visits.size
  visited : ∀ i : Nat, scan.visits[i]? ≠ some .fresh → scan'.visits[i]? ≠ some .fresh
  done : ∀ i : Nat, scan.visits[i]? = some .done → scan'.visits[i]? = some .done
  loops : ∃ new, scan'.loops.toList = scan.loops.toList ++ new ∧
    ∀ l ∈ new, (∃ body, l = g.loopOf l.header body) ∧ l.header < scan.visits.size ∧
      scan.visits[l.header]? ≠ some .done

namespace Extends

lemma refl (g : Graph) (scan : Scan) : Extends g scan scan :=
  ⟨rfl, fun _ h => h, fun _ h => h, [], by simp, by simp⟩

/-- What one part of the search keeps and another one keeps, both keep. -/
lemma trans (h : Extends g scan scan') (h' : Extends g scan' scan'') : Extends g scan scan'' := by
  obtain ⟨new, hnew, hheader⟩ := h.loops
  obtain ⟨new', hnew', hheader'⟩ := h'.loops
  refine ⟨h'.size_eq.trans h.size_eq, fun i hi => h'.visited i (h.visited i hi),
    fun i hi => h'.done i (h.done i hi), new ++ new', by rw [hnew', hnew, List.append_assoc],
    fun l hl => ?_⟩
  rcases List.mem_append.mp hl with hl | hl
  · exact hheader l hl
  · obtain ⟨hbody, hlt, hdone⟩ := hheader' l hl
    exact ⟨hbody, h.size_eq ▸ hlt, fun hleft => hdone (h.done _ hleft)⟩

lemma enter (h : scan.visits[id]? = some .fresh) : Extends g scan (scan.enter id) := by
  have hid := (Array.getElem?_eq_some_iff.mp h).1
  refine ⟨by simp [Scan.enter], fun i hi => ?_, fun i hi => ?_, [], by simp [Scan.enter], by simp⟩
  · rw [getElem?_visits_enter _ _ _ hid]
    split_ifs
    · simp
    · exact hi
  · rw [getElem?_visits_enter _ _ _ hid, if_neg]
    · exact hi
    · rintro rfl
      rw [h] at hi
      exact absurd hi (by decide)

lemma leave (h : id < scan.visits.size) : Extends g scan (scan.leave id) := by
  refine ⟨by simp [Scan.leave], fun i hi => ?_, fun i hi => ?_, [], by simp [Scan.leave], by simp⟩
  all_goals
    rw [getElem?_visits_leave _ _ _ h]
    split_ifs
    · simp
    · exact hi

lemma close {header tail : Nat} (h : scan.visits[header]? = some .active) :
    Extends g scan (scan.close g header tail) := by
  refine ⟨by rw [visits_close], fun i => ?_, fun i => ?_, ?_⟩
  · rw [visits_close]; exact fun hi => hi
  · rw [visits_close]; exact fun hi => hi
  · unfold Scan.close
    split
    · rename_i body _
      refine ⟨[g.loopOf header body], by simp, fun l hl => ?_⟩
      obtain rfl : l = g.loopOf header body := by simpa using hl
      refine ⟨⟨body, rfl⟩, (Array.getElem?_eq_some_iff.mp h).1, ?_⟩
      show scan.visits[header]? ≠ some .done
      rw [h]
      decide
    · exact ⟨[], by simp, by simp⟩

end Extends

/-! ### The invariant -/

/-- **What holds along a search**: a node that is visited and not left is on the stack, and the
successors of a visited node are visited or on the stack to be tried. -/
structure Covers (g : Graph) (scan : Scan) (frames : List Frame) : Prop where
  size_eq : scan.visits.size = g.size
  node_lt : ∀ frame ∈ frames, frame.node < g.size
  left_sub : ∀ frame ∈ frames, ∀ x ∈ frame.left, x ∈ g.successors frame.node
  active : ∀ i : Nat, scan.visits[i]? = some .active → i ∈ frames.map Frame.node
  tried : ∀ frame ∈ frames, ∀ x ∈ g.successors frame.node,
    x ∈ frame.left ∨ scan.visits[x]? ≠ some .fresh
  left : ∀ i : Nat, scan.visits[i]? = some .done →
    ∀ x ∈ g.successors i, scan.visits[x]? ≠ some .fresh

namespace Covers

lemma enter (h : Covers g scan frames) (hid : scan.visits[id]? = some .fresh) :
    Covers g (scan.enter id) (⟨id, g.successors id⟩ :: frames) := by
  have hlt := (Array.getElem?_eq_some_iff.mp hid).1
  have hvisited := (Extends.enter (g := g) hid).visited
  refine ⟨by simpa [Scan.enter] using h.size_eq, ?_, ?_, fun i hi => ?_, ?_, fun i hi x hx => ?_⟩
  · simpa [h.size_eq ▸ hlt] using h.node_lt
  · simpa using h.left_sub
  · rw [getElem?_visits_enter _ _ _ hlt] at hi
    split_ifs at hi with heq
    · simp [heq]
    · exact List.mem_cons_of_mem _ (h.active i hi)
  · intro frame hframe x hx
    rcases List.mem_cons.mp hframe with rfl | hframe
    · exact Or.inl hx
    · exact (h.tried frame hframe x hx).imp_right (hvisited x)
  · rw [getElem?_visits_enter _ _ _ hlt] at hi
    split_ifs at hi
    · exact absurd hi (by decide)
    · exact hvisited x (h.left i hi x hx)

lemma leave (h : Covers g scan (⟨node, []⟩ :: rest)) : Covers g (scan.leave node) rest := by
  have hlt : node < scan.visits.size := h.size_eq ▸ h.node_lt _ List.mem_cons_self
  have hvisited := (Extends.leave (g := g) hlt).visited
  refine ⟨by simpa [Scan.leave] using h.size_eq, fun frame hframe => ?_, fun frame hframe => ?_,
    fun i hi => ?_, fun frame hframe x hx => ?_, fun i hi x hx => ?_⟩
  · exact h.node_lt frame (List.mem_cons_of_mem _ hframe)
  · exact h.left_sub frame (List.mem_cons_of_mem _ hframe)
  · rw [getElem?_visits_leave _ _ _ hlt] at hi
    split_ifs at hi with heq
    · exact absurd hi (by decide)
    · exact (List.mem_cons.mp (h.active i hi)).resolve_left heq
  · exact (h.tried frame (List.mem_cons_of_mem _ hframe) x hx).imp_right (hvisited x)
  · rw [getElem?_visits_leave _ _ _ hlt] at hi
    split_ifs at hi with heq
    · subst heq
      exact hvisited x ((h.tried _ List.mem_cons_self x hx).resolve_left List.not_mem_nil)
    · exact hvisited x (h.left i hi x hx)

/-- A visited node need not be tried. -/
lemma drop (above : List Frame) (h : Covers g scan (above ++ ⟨node, id :: left⟩ :: rest))
    (hid : scan.visits[id]? ≠ some .fresh) : Covers g scan (above ++ ⟨node, left⟩ :: rest) := by
  have hmem : ⟨node, id :: left⟩ ∈ above ++ ⟨node, id :: left⟩ :: rest := by simp
  have hframe : ∀ frame ∈ above ++ ⟨node, left⟩ :: rest,
      frame = ⟨node, left⟩ ∨ frame ∈ above ++ ⟨node, id :: left⟩ :: rest := by
    intro frame hframe
    simp only [List.mem_append, List.mem_cons] at hframe ⊢
    tauto
  refine ⟨h.size_eq, fun frame hf => ?_, fun frame hf => ?_, by simpa using h.active,
    fun frame hf => ?_, h.left⟩
  · rcases hframe frame hf with rfl | hf
    · exact h.node_lt ⟨node, id :: left⟩ hmem
    · exact h.node_lt frame hf
  · rcases hframe frame hf with rfl | hf
    · exact fun x hx => h.left_sub _ hmem x (List.mem_cons_of_mem _ hx)
    · exact h.left_sub frame hf
  · rcases hframe frame hf with rfl | hf
    · intro x hx
      rcases h.tried ⟨node, id :: left⟩ hmem x hx with hx | hx
      · rcases List.mem_cons.mp hx with rfl | hx
        · exact Or.inr hid
        · exact Or.inl hx
      · exact Or.inr hx
    · exact h.tried frame hf

lemma close {header tail : Nat} (h : Covers g scan frames) :
    Covers g (scan.close g header tail) frames := by
  refine ⟨?_, h.node_lt, h.left_sub, ?_, ?_, ?_⟩
  all_goals rw [visits_close]
  · exact h.size_eq
  · exact h.active
  · exact h.tried
  · exact h.left

/-- Behind a search that has ended, a visited node is left. -/
lemma done_of_visited (h : Covers g scan []) (hid : id < g.size)
    (hfresh : scan.visits[id]? ≠ some .fresh) : scan.visits[id]? = some .done := by
  have hactive : scan.visits[id]? ≠ some .active := fun hid => by simpa using h.active id hid
  have hlt : id < scan.visits.size := h.size_eq ▸ hid
  rw [Array.getElem?_eq_getElem hlt] at hfresh hactive ⊢
  cases hv : scan.visits[id] with
  | fresh => exact absurd (congrArg some hv) hfresh
  | active => exact absurd (congrArg some hv) hactive
  | done => rfl

/-- Behind a search that has ended, what a left node reaches is left. -/
lemma done_of_reaches (h : Covers g scan []) (hg : g.Closed) {root : Nat}
    (hroot : scan.visits[root]? = some .done) (hreach : Reaches g.successors root id) :
    scan.visits[id]? = some .done := by
  refine hreach.preserves (P := fun x => scan.visits[x]? = some .done) hroot fun x hx y hy => ?_
  exact h.done_of_visited (hg.lt_of_mem_successors hy) (h.left x hx y hy)

end Covers

/-- **A search ends**, with its invariant and an empty stack. -/
lemma run_eq (hg : g.Closed) (h : Covers g scan frames) :
    ∃ scan', run g scan frames = .ok scan' ∧ Extends g scan scan' ∧ Covers g scan' [] := by
  fun_induction run g scan frames with
  | case1 scan => exact ⟨scan, rfl, .refl g scan, h⟩
  | case2 scan node rest ih =>
      obtain ⟨scan', heq, hext, hcov⟩ := ih h.leave
      have hlt : node < scan.visits.size := h.size_eq ▸ h.node_lt _ List.mem_cons_self
      exact ⟨scan', heq, (Extends.leave hlt).trans hext, hcov⟩
  | case3 scan node id left rest hlt hv ih =>
      have hid : scan.visits[id]? = some .fresh := by rw [Array.getElem?_eq_getElem hlt, hv]
      have hnow : (scan.enter id).visits[id]? ≠ some .fresh := by
        rw [getElem?_visits_enter _ _ _ hlt, if_pos rfl]
        decide
      obtain ⟨scan', heq, hext, hcov⟩ := ih ((h.enter hid).drop [_] hnow)
      exact ⟨scan', heq, (Extends.enter hid).trans hext, hcov⟩
  | case4 scan node id left rest hlt hv ih =>
      have hid : scan.visits[id]? = some .active := by rw [Array.getElem?_eq_getElem hlt, hv]
      obtain ⟨scan', heq, hext, hcov⟩ := ih (h.drop [] (by rw [hid]; decide)).close
      exact ⟨scan', heq, (Extends.close hid).trans hext, hcov⟩
  | case5 scan node id left rest hlt hv ih =>
      have hid : scan.visits[id]? = some .done := by rw [Array.getElem?_eq_getElem hlt, hv]
      obtain ⟨scan', heq, hext, hcov⟩ := ih (h.drop [] (by rw [hid]; decide))
      exact ⟨scan', heq, hext, hcov⟩
  | case6 scan node id left rest hlt =>
      have hmem := h.left_sub _ List.mem_cons_self id List.mem_cons_self
      exact absurd (h.size_eq ▸ hg.lt_of_mem_successors hmem) hlt

/-- A search from another root adds to what was found before. -/
lemma fromRoot_eq (hg : g.Closed) (h : Covers g scan []) (root : Nat) :
    ∃ scan', fromRoot g scan root = .ok scan' ∧ Extends g scan scan' ∧ Covers g scan' [] := by
  unfold fromRoot
  split_ifs with hroot
  · obtain ⟨scan', heq, hext, hcov⟩ := run_eq hg (h.enter hroot)
    exact ⟨scan', heq, (Extends.enter hroot).trans hext, hcov⟩
  · exact ⟨scan, rfl, .refl g scan, h⟩

/-- The searches from a list of roots, one after the other. -/
lemma foldlM_fromRoot_eq (hg : g.Closed) (roots : List Nat) :
    ∀ scan, Covers g scan [] →
      ∃ scan', roots.foldlM (fromRoot g) scan = .ok scan' ∧ Extends g scan scan' := by
  induction roots with
  | nil => exact fun scan _ => ⟨scan, rfl, .refl g scan⟩
  | cons root roots ih =>
      intro scan h
      obtain ⟨mid, hmid, hext, hcov⟩ := fromRoot_eq hg h root
      obtain ⟨scan', heq, hext'⟩ := ih mid hcov
      refine ⟨scan', ?_, hext.trans hext'⟩
      rw [List.foldlM_cons, hmid]
      exact heq

/-- The state before the first search. -/
def start (g : Graph) : Scan := ⟨Array.replicate g.size .fresh, #[]⟩

/-- Before the first search nothing has been visited. -/
lemma covers_start (g : Graph) : Covers g (start g) [] := by
  refine ⟨by simp [start], by simp, by simp, fun i hi => ?_, by simp, fun i hi => ?_⟩
  all_goals
    simp only [start, Array.getElem?_replicate] at hi
    split_ifs at hi
    exact absurd hi (by decide)

end Scan

/-! ## All searches -/

/-- **The loops of a graph are those of the search from its entry, and then others.**  The first
search leaves all nodes that the entry reaches, so the others add loops with headers that it does not
reach. -/
lemma Graph.Closed.loops_eq {g : Graph} (hg : g.Closed) (hentry : g.entry < g.size) :
    ∃ first others, Scan.run g ((Scan.start g).enter g.entry) [⟨g.entry, g.successors g.entry⟩]
        = .ok first ∧
      g.loops = .ok (first.loops.toList ++ others) ∧
      (∀ id, Reaches g.successors g.entry id → first.visits[id]? = some .done) ∧
      (∀ l ∈ others, ¬Reaches g.successors g.entry l.header) ∧
      ∀ l ∈ first.loops.toList ++ others, l.header < g.size ∧ ∃ body, l = g.loopOf l.header body := by
  have hfresh : (Scan.start g).visits[g.entry]? = some .fresh := by simp [Scan.start, hentry]
  obtain ⟨first, hfirst, hext, hcov⟩ := Scan.run_eq hg ((Scan.covers_start g).enter hfresh)
  obtain ⟨last, hlast, hext'⟩ := Scan.foldlM_fromRoot_eq hg g.ids first hcov
  obtain ⟨new, hnew, hbody⟩ := hext.loops
  obtain ⟨others, hothers, hheader⟩ := hext'.loops
  have hdone : ∀ id, Reaches g.successors g.entry id → first.visits[id]? = some .done := by
    have hvisited : first.visits[g.entry]? ≠ some .fresh := by
      refine hext.visited g.entry ?_
      rw [Scan.getElem?_visits_enter _ _ _ (by simpa [Scan.start] using hentry), if_pos rfl]
      decide
    exact fun id => hcov.done_of_reaches hg (hcov.done_of_visited hentry hvisited)
  refine ⟨first, others, hfirst, ?_, hdone, fun l hl hreach => ?_, fun l hl => ?_⟩
  · have hroot : Scan.fromRoot g (Scan.start g) g.entry = .ok first := by
      rw [Scan.fromRoot, if_pos hfresh, hfirst]
    have hfold : (g.entry :: g.ids).foldlM (Scan.fromRoot g) (Scan.start g) = .ok last := by
      rw [List.foldlM_cons, hroot]
      exact hlast
    rw [loops, ← hothers]
    simp only [← Scan.start.eq_def, hfold]
    rfl
  · exact (hheader l hl).2.2 (hdone l.header hreach)
  · rcases List.mem_append.mp hl with hl | hl
    · obtain ⟨hloop, hlt, _⟩ := hbody l (by simpa [hnew, Scan.start, Scan.enter] using hl)
      exact ⟨by simpa [Scan.start, Scan.enter] using hlt, hloop⟩
    · obtain ⟨hloop, hlt, _⟩ := hheader l hl
      exact ⟨hcov.size_eq ▸ hlt, hloop⟩

/-- The loop of the sample graph. -/
lemma Graph.loops_sample : sample.loops = .ok [⟨1, some 5, [1, 3, 4], [], []⟩] := by
  have hbody : sample.loopOf 1 [1, 3, 4] = ⟨1, some 5, [1, 3, 4], [], []⟩ := by
    rw [loopOf, wayOut?_eq_find?]
    decide
  rw [← hbody]
  with_unfolding_all rfl

end BytecodeFlow
