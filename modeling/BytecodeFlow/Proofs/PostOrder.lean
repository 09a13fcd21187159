import Mathlib
import BytecodeFlow.Graph.PostOrder
import BytecodeFlow.Proofs.Walk

/-!
# What reverse post order says about a graph

`reversePostOrder` lists the nodes that a root reaches.  What dominance needs from the list is that no node
comes before all nodes that lead to it.

**Led to.**  `LedTo next before nodes` says that each of `nodes` is a successor of a node before it.  More
nodes before do no harm (`LedTo.mono`), so a node can be put in wherever one that leads to it stands before
(`LedTo.insert`).

**The search.**  The nodes that a search is inside of, and behind them those that it has left, stand in the
same line before and after a node is left; a node that is entered comes between the two.  `Leaving` says
that this line is led to from the root, and `leaveAll_eq` follows it through the search.

**The order.**  `ReversePostOrder` is what remains at the end: the nodes are those that the root reaches
(`ReversePostOrder.mem_iff`), and each can be reached through nodes in front of it alone
(`ReversePostOrder.exists_walk`).
-/

namespace BytecodeFlow

variable {next : Nat → List Nat} {root : Nat}

/-! ## Led to -/

/-- Whether each of some nodes is a successor of a node before it. -/
def LedTo (next : Nat → List Nat) (before : List Nat) : List Nat → Prop
  | [] => True
  | id :: rest => (∃ p ∈ before, id ∈ next p) ∧ LedTo next (before ++ [id]) rest

namespace LedTo

lemma mono {before before' nodes : List Nat} (hsub : before ⊆ before') (h : LedTo next before nodes) :
    LedTo next before' nodes := by
  induction nodes generalizing before before' with
  | nil => exact trivial
  | cons id rest ih =>
      obtain ⟨⟨p, hp, hid⟩, hrest⟩ := h
      refine ⟨⟨p, hsub hp, hid⟩, ih ?_ hrest⟩
      intro x hx
      rcases List.mem_append.mp hx with hx | hx
      · exact List.mem_append_left _ (hsub hx)
      · exact List.mem_append_right _ hx

lemma append_iff {before nodes nodes' : List Nat} :
    LedTo next before (nodes ++ nodes') ↔
      LedTo next before nodes ∧ LedTo next (before ++ nodes) nodes' := by
  induction nodes generalizing before with
  | nil => simp [LedTo]
  | cons id rest ih =>
      rw [List.cons_append, LedTo, LedTo, ih, List.append_assoc, List.singleton_append, and_assoc]

/-- A node can be put in behind any node that leads to it. -/
lemma insert {before nodes nodes' : List Nat} {p id : Nat} (h : LedTo next before (nodes ++ nodes'))
    (hp : p ∈ before ++ nodes) (hid : id ∈ next p) : LedTo next before (nodes ++ id :: nodes') := by
  rw [append_iff] at h ⊢
  exact ⟨h.1, ⟨p, hp, hid⟩, h.2.mono (List.subset_append_left _ _)⟩

end LedTo

/-! ## The search -/

/-- **What the search keeps**: the nodes that it is inside of and those that it has left are the nodes that
are marked, each of them once, and the root leads to them.  The successors of a node that are not marked
are those still to be tried. -/
structure Leaving (next : Nat → List Nat) (root : Nat) (seen : Array Bool) (order : List Nat)
    (frames : List Frame) : Prop where
  nodup : (Frame.spine frames ++ order).Nodup
  seen_iff : ∀ i : Nat, seen[i]? = some true ↔ i ∈ Frame.spine frames ++ order
  led : ∃ others, Frame.spine frames ++ order = root :: others ∧ LedTo next [root] others
  tried : ∀ frame ∈ frames, ∀ j ∈ next frame.node, j ∈ frame.left ∨ j ∈ Frame.spine frames ++ order
  left_lt : ∀ frame ∈ frames, ∀ j ∈ frame.left, j ∈ next frame.node ∧ j < seen.size
  closed : ∀ i ∈ order, ∀ j ∈ next i, j ∈ Frame.spine frames ++ order

/-- **An order in which a root reaches its nodes**: each of the others is led to from the root, and the nodes
are closed under edges. -/
structure ReversePostOrder (next : Nat → List Nat) (root : Nat) (others : List Nat) : Prop where
  nodup : (root :: others).Nodup
  led : LedTo next [root] others
  closed : ∀ i ∈ root :: others, ∀ j ∈ next i, j ∈ root :: others

lemma Frame.spine_cons (frame : Frame) (frames : List Frame) :
    Frame.spine (frame :: frames) = Frame.spine frames ++ [frame.node] := by
  simp [Frame.spine]

namespace Leaving

variable {seen : Array Bool} {order left : List Nat} {frames : List Frame} {node id : Nat}

/-- Leaving a node changes nothing but where those left begin. -/
lemma leave (h : Leaving next root seen order (⟨node, []⟩ :: frames)) :
    Leaving next root seen (node :: order) frames := by
  have hline : Frame.spine (⟨node, []⟩ :: frames) ++ order = Frame.spine frames ++ node :: order := by
    rw [Frame.spine_cons, List.append_assoc, List.singleton_append]
  refine ⟨hline ▸ h.nodup, hline ▸ h.seen_iff, hline ▸ h.led, ?_, ?_, ?_⟩
  · intro frame hframe
    rw [← hline]
    exact h.tried frame (List.mem_cons_of_mem _ hframe)
  · exact fun frame hframe => h.left_lt frame (List.mem_cons_of_mem _ hframe)
  · intro i hi j hj
    rw [← hline]
    rcases List.mem_cons.mp hi with rfl | hi
    · exact (h.tried _ List.mem_cons_self j hj).resolve_left (by simp)
    · exact h.closed i hi j hj

/-- A successor that is marked has been tried. -/
lemma skip (h : Leaving next root seen order (⟨node, id :: left⟩ :: frames)) (hid : seen[id]? = some true) :
    Leaving next root seen order (⟨node, left⟩ :: frames) := by
  have hspine : Frame.spine (⟨node, id :: left⟩ :: frames) = Frame.spine (⟨node, left⟩ :: frames) := by
    simp only [Frame.spine_cons]
  rw [h.seen_iff, hspine] at hid
  refine ⟨hspine ▸ h.nodup, hspine ▸ h.seen_iff, hspine ▸ h.led, ?_, ?_, hspine ▸ h.closed⟩
  · intro frame hframe j hj
    rcases List.mem_cons.mp hframe with rfl | hframe
    · rcases h.tried _ List.mem_cons_self j hj with htry | hin
      · rcases List.mem_cons.mp htry with rfl | htry
        · exact Or.inr hid
        · exact Or.inl htry
      · exact Or.inr (hspine ▸ hin)
    · exact (h.tried frame (List.mem_cons_of_mem _ hframe) j hj).imp_right (hspine ▸ ·)
  · intro frame hframe j hj
    rcases List.mem_cons.mp hframe with rfl | hframe
    · exact h.left_lt _ List.mem_cons_self j (List.mem_cons_of_mem _ hj)
    · exact h.left_lt frame (List.mem_cons_of_mem _ hframe) j hj

/-- The line begins with the root, so a successor can be put in behind the nodes that the search is inside
of, the last of which leads to it. -/
lemma led_insert (h : Leaving next root seen order (⟨node, id :: left⟩ :: frames)) :
    ∃ others, Frame.spine (⟨node, id :: left⟩ :: frames) ++ id :: order = root :: others ∧
      LedTo next [root] others := by
  obtain ⟨others, hothers, hled⟩ := h.led
  have hstep : id ∈ next node := (h.left_lt _ List.mem_cons_self id List.mem_cons_self).1
  cases hspine : Frame.spine (⟨node, id :: left⟩ :: frames) with
  | nil => simp [Frame.spine_cons] at hspine
  | cons first rest =>
      rw [hspine, List.cons_append] at hothers
      obtain ⟨rfl, rfl⟩ := List.cons.inj hothers
      refine ⟨rest ++ id :: order, by rw [List.cons_append], hled.insert ?_ hstep⟩
      rw [List.singleton_append, ← hspine, Frame.spine_cons]
      exact List.mem_append_right _ (List.mem_singleton.mpr rfl)

/-- **A node that is entered** comes between those that the search is inside of, the last of which leads to
it, and those that it has left. -/
lemma enter (hnext : ∀ i < seen.size, ∀ j ∈ next i, j < seen.size)
    (h : Leaving next root seen order (⟨node, id :: left⟩ :: frames)) (hlt : id < seen.size)
    (hid : seen[id]? ≠ some true) :
    Leaving next root (seen.set id true) order (⟨id, next id⟩ :: ⟨node, left⟩ :: frames) := by
  have hline : Frame.spine (⟨id, next id⟩ :: ⟨node, left⟩ :: frames) ++ order
      = Frame.spine (⟨node, id :: left⟩ :: frames) ++ id :: order := by
    simp only [Frame.spine_cons, List.append_assoc, List.cons_append, List.nil_append]
  have hmem : ∀ j, j ∈ Frame.spine (⟨node, id :: left⟩ :: frames) ++ id :: order ↔
      j = id ∨ j ∈ Frame.spine (⟨node, id :: left⟩ :: frames) ++ order := by
    intro j
    simp only [List.mem_append, List.mem_cons]
    tauto
  have hnot : id ∉ Frame.spine (⟨node, id :: left⟩ :: frames) ++ order := by
    rwa [← h.seen_iff]
  refine ⟨?_, ?_, ?_, ?_, ?_, ?_⟩
  · rw [hline, List.nodup_middle]
    exact List.nodup_cons.mpr ⟨hnot, h.nodup⟩
  · intro i
    rw [hline, hmem, ← h.seen_iff, Array.getElem?_set]
    split_ifs with heq
    · simp [heq]
    · simp [Ne.symm heq]
  · rw [hline]
    exact h.led_insert
  · intro frame hframe j hj
    rw [hline, hmem]
    rcases List.mem_cons.mp hframe with rfl | hframe
    · exact Or.inl hj
    · rcases List.mem_cons.mp hframe with rfl | hframe
      · rcases h.tried _ List.mem_cons_self j hj with htry | hin
        · rcases List.mem_cons.mp htry with rfl | htry
          · exact Or.inr (Or.inl rfl)
          · exact Or.inl htry
        · exact Or.inr (Or.inr hin)
      · exact (h.tried frame (List.mem_cons_of_mem _ hframe) j hj).imp_right Or.inr
  · intro frame hframe j hj
    rw [Array.size_set]
    rcases List.mem_cons.mp hframe with rfl | hframe
    · exact ⟨hj, hnext id hlt j hj⟩
    · rcases List.mem_cons.mp hframe with rfl | hframe
      · exact h.left_lt _ List.mem_cons_self j (List.mem_cons_of_mem _ hj)
      · exact h.left_lt frame (List.mem_cons_of_mem _ hframe) j hj
  · intro i hi j hj
    rw [hline, hmem]
    exact Or.inr (h.closed i hi j hj)

/-- At the end all nodes have been left. -/
lemma finish (h : Leaving next root seen order []) :
    ∃ others, order = root :: others ∧ ReversePostOrder next root others := by
  obtain ⟨others, hothers, hled⟩ := h.led
  obtain rfl : order = root :: others := hothers
  exact ⟨others, rfl, h.nodup, hled, h.closed⟩

end Leaving

/-- **The search ends with a result**, if no successor is out of range. -/
lemma leaveAll_eq {seen : Array Bool} {order : List Nat} {frames : List Frame}
    (hnext : ∀ i < seen.size, ∀ j ∈ next i, j < seen.size) (h : Leaving next root seen order frames) :
    ∃ others, leaveAll next seen order frames = .ok (root :: others) ∧
      ReversePostOrder next root others := by
  fun_induction leaveAll next seen order frames with
  | case1 seen order =>
      obtain ⟨others, rfl, hothers⟩ := h.finish
      exact ⟨others, rfl, hothers⟩
  | case2 seen order node rest ih => exact ih hnext h.leave
  | case3 seen order node id left rest hlt hseen ih => exact ih hnext (h.skip (by simp [hlt, hseen]))
  | case4 seen order node id left rest hlt hseen ih =>
      exact ih (by simpa using hnext) (h.enter hnext hlt (by simpa [hlt] using hseen))
  | case5 seen order node id left rest hge =>
      exact absurd (h.left_lt _ List.mem_cons_self id List.mem_cons_self).2 hge

lemma reversePostOrder_eq {size : Nat} (hnext : ∀ i < size, ∀ j ∈ next i, j < size)
    (hroot : root < size) :
    ∃ others, reversePostOrder size next root = .ok (root :: others) ∧
      ReversePostOrder next root others := by
  refine leaveAll_eq (by simpa using hnext) ⟨?_, ?_, ⟨[], ?_, trivial⟩, ?_, ?_, ?_⟩
  · simp [Frame.spine]
  · intro i
    rw [Array.getElem?_setIfInBounds]
    by_cases hi : root = i
    · simp [Frame.spine, ← hi, hroot]
    · simp [Frame.spine, hi, Ne.symm hi, Array.getElem?_replicate]
  · simp [Frame.spine]
  · simp +contextual
  · intro frame hframe j hj
    obtain rfl : frame = ⟨root, next root⟩ := by simpa using hframe
    exact ⟨hj, by simpa using hnext root hroot j hj⟩
  · simp

/-! ## The order -/

/-- A node is reached through nodes before it alone. -/
lemma LedTo.exists_walk (done : List Nat) {id : Nat} {rest : List Nat}
    (h : LedTo next [root] (done ++ id :: rest)) :
    ∃ init, Walk next root id (init ++ [id]) ∧ ∀ x ∈ init, x ∈ root :: done := by
  obtain ⟨p, hp, hid⟩ := (append_iff.mp h).2.1
  rcases List.mem_cons.mp hp with rfl | hp
  · exact ⟨[p], .cons hid (.single id), by simp⟩
  · obtain ⟨earlier, later, rfl⟩ := List.append_of_mem hp
    rw [List.append_assoc, List.cons_append] at h
    obtain ⟨init, hwalk, hinit⟩ := LedTo.exists_walk earlier h
    refine ⟨init ++ [p], hwalk.snoc hid, fun x hx => ?_⟩
    simp only [List.mem_append, List.mem_cons, List.not_mem_nil, or_false] at hx hinit ⊢
    rcases hx with hx | rfl
    · exact (hinit x hx).imp_right Or.inl
    · exact Or.inr (Or.inr (Or.inl rfl))
termination_by done.length

namespace ReversePostOrder

variable {others : List Nat} {id : Nat}

/-- **The order holds the nodes that the root reaches.** -/
lemma mem_iff (h : ReversePostOrder next root others) : id ∈ root :: others ↔ Reaches next root id := by
  constructor
  · intro hid
    rcases List.mem_cons.mp hid with rfl | hid
    · exact .refl _ _
    · obtain ⟨done, rest, rfl⟩ := List.append_of_mem hid
      obtain ⟨init, hwalk, _⟩ := h.led.exists_walk
      exact ⟨_, hwalk⟩
  · exact fun hid => hid.preserves (P := (· ∈ root :: others)) List.mem_cons_self h.closed

end ReversePostOrder

/-! ## Places -/

lemma getElem?_foldl_positions_of_not_mem {list : List Nat} {id : Nat} (hid : id ∉ list) (start : Nat)
    (table : Array Nat) :
    ((list.zipIdx start).foldl (fun positions entry => positions.setIfInBounds entry.1 entry.2)
      table)[id]? = table[id]? := by
  induction list generalizing start table with
  | nil => rfl
  | cons x list ih =>
      rw [List.mem_cons, not_or] at hid
      rw [List.zipIdx_cons, List.foldl_cons, ih hid.2, Array.getElem?_setIfInBounds_ne (Ne.symm hid.1)]

/-- Writing down the positions of different nodes gives each its own. -/
lemma getElem?_foldl_positions {list : List Nat} (hnodup : list.Nodup) (start : Nat) (table : Array Nat)
    (hlt : ∀ id ∈ list, id < table.size) (i : Nat) (hi : i < list.length) :
    ((list.zipIdx start).foldl (fun positions entry => positions.setIfInBounds entry.1 entry.2)
      table)[list[i]]? = some (start + i) := by
  induction list generalizing start table i with
  | nil => simp at hi
  | cons x list ih =>
      rw [List.nodup_cons] at hnodup
      rw [List.zipIdx_cons, List.foldl_cons]
      cases i with
      | zero =>
          rw [List.getElem_cons_zero, getElem?_foldl_positions_of_not_mem hnodup.1,
            Array.getElem?_setIfInBounds_self_of_lt (hlt x List.mem_cons_self)]
          rfl
      | succ i =>
          rw [List.getElem_cons_succ, ih hnodup.2 (start + 1) _ (fun id hid => ?_)]
          · congr 1
            omega
          · rw [Array.size_setIfInBounds]
            exact hlt id (List.mem_cons_of_mem _ hid)

namespace Numbering

variable {size : Nat} {others : List Nat}

lemma place_getElem (hnodup : (root :: others).Nodup) (hlt : ∀ id ∈ others, id < size) (i : Nat)
    (hi : i < others.length) : (ofList size root others).place others[i] = i + 1 := by
  obtain ⟨hroot, hnodup⟩ := List.nodup_cons.mp hnodup
  have hne : others[i] ≠ root := fun h => hroot (h ▸ List.getElem_mem hi)
  rw [place, ofList, if_neg hne, getElem?_foldl_positions hnodup 0 _ (by simpa using hlt) i hi]
  simp

/-- **The places ascend** along a numbering. -/
lemma pairwise_place (hnodup : (root :: others).Nodup) (hlt : ∀ id ∈ others, id < size) :
    (root :: others).Pairwise fun a b =>
      (ofList size root others).place a < (ofList size root others).place b := by
  rw [List.pairwise_cons]
  constructor
  · intro id hid
    obtain ⟨i, hi, rfl⟩ := List.getElem_of_mem hid
    rw [place_getElem hnodup hlt i hi]
    exact (place_root _).trans_lt (Nat.succ_pos i)
  · rw [List.pairwise_iff_getElem]
    intro i j hi hj hij
    rw [place_getElem hnodup hlt i hi, place_getElem hnodup hlt j hj]
    exact Nat.succ_lt_succ hij

end Numbering

end BytecodeFlow
