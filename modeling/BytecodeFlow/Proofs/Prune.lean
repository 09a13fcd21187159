import Mathlib
import BytecodeFlow.Proofs.RenumberedSearch

/-!
# Removing dead code

`Graph.prune` marks the nodes that the entry reaches and keeps these, numbered anew.

**Numbers.**  `marked` lists the marked nodes in order.  The new number of a node is its position in
that list (`getElem?_renumbering`), and the new graph holds the nodes of the list one after the other
(`filterMap_zip_eq`).

**The result.**  `Prunes` says what the new graph is; `Closed.prune_eq` proves it, and
`Prunes.embeds` puts the new graph inside the old one, so that whatever starts at the entry is the
same in both.  All that is left is reached, so removing dead code again does nothing
(`Closed.prune_of_reached`).
-/

namespace BytecodeFlow

/-! ## Numbers -/

/-- The numbers of the marked nodes, in order. -/
def marked (marks : List Bool) : List Nat :=
  (List.range marks.length).filter fun id => marks[id]? = some true

lemma mem_marked {marks : List Bool} {id : Nat} : id ∈ marked marks ↔ marks[id]? = some true := by
  rw [marked, List.mem_filter, List.mem_range, decide_eq_true_eq, and_iff_right_iff_imp]
  intro h
  exact (List.getElem?_eq_some_iff.mp h).1

lemma lt_of_mem_marked {marks : List Bool} {id : Nat} (h : id ∈ marked marks) : id < marks.length :=
  (List.getElem?_eq_some_iff.mp (mem_marked.mp h)).1

lemma marked_ascending (marks : List Bool) : (marked marks).Pairwise (· < ·) :=
  List.pairwise_lt_range.filter _

lemma marked_concat (marks : List Bool) (mark : Bool) :
    marked (marks ++ [mark]) = marked marks ++ if mark then [marks.length] else [] := by
  have hinit : ∀ id ∈ List.range marks.length,
      decide ((marks ++ [mark])[id]? = some true) = decide (marks[id]? = some true) := by
    intro id hid
    rw [List.getElem?_append_left (List.mem_range.mp hid)]
  rw [marked, List.length_append, List.length_singleton, List.range_succ, List.filter_append,
    List.filter_congr hinit, ← marked]
  cases mark <;> simp

lemma notMem_marked_length (marks : List Bool) : marks.length ∉ marked marks :=
  fun h => Nat.lt_irrefl _ (lt_of_mem_marked h)

lemma mem_marked_concat_of_lt {marks : List Bool} {id : Nat} (mark : Bool) (hid : id < marks.length) :
    id ∈ marked (marks ++ [mark]) ↔ id ∈ marked marks := by
  rw [mem_marked, mem_marked, List.getElem?_append_left hid]

/-- The nodes without a mark are those that are not listed. -/
lemma count_false_eq (marks : List Bool) :
    marks.count false = ((List.range marks.length).filter (· ∉ marked marks)).length := by
  induction marks using List.reverseRecOn with
  | nil => rfl
  | append_singleton marks mark ih =>
      have hinit : ∀ id ∈ List.range marks.length,
          decide (id ∉ marked (marks ++ [mark])) = decide (id ∉ marked marks) := by
        intro id hid
        simp only [mem_marked_concat_of_lt mark (List.mem_range.mp hid)]
      rw [List.length_append, List.length_singleton, List.range_succ, List.filter_append,
        List.filter_congr hinit, List.length_append, List.count_append, ih]
      cases mark <;> simp [marked_concat, notMem_marked_length]

/-- The position of a node among the marked ones, if it is one of them. -/
def markedPosition? (marks : List Bool) (id : Nat) : Option Nat :=
  if id ∈ marked marks then some ((marked marks).idxOf id) else none

lemma markedPosition?_concat_of_lt {marks : List Bool} {id : Nat} (mark : Bool) (hid : id < marks.length) :
    markedPosition? (marks ++ [mark]) id = markedPosition? marks id := by
  simp only [markedPosition?, mem_marked_concat_of_lt mark hid]
  split_ifs with hmarked
  · rw [marked_concat, List.idxOf_append_of_mem hmarked]
  · rfl

lemma markedPosition?_concat_last (marks : List Bool) (mark : Bool) :
    markedPosition? (marks ++ [mark]) marks.length
      = if mark then some (marked marks).length else none := by
  cases mark with
  | false => simp [markedPosition?, marked_concat, notMem_marked_length]
  | true =>
      simp [markedPosition?, marked_concat, List.idxOf_append_of_notMem (notMem_marked_length marks)]

lemma foldl_renumbering (marks : List Bool) :
    marks.foldl
        (fun (numbers, fresh) mark =>
          if mark then (numbers.push (some fresh), fresh + 1) else (numbers.push none, fresh))
        ((#[] : Array (Option Nat)), 0)
      = (((List.range marks.length).map (markedPosition? marks)).toArray, (marked marks).length) := by
  induction marks using List.reverseRecOn with
  | nil => rfl
  | append_singleton marks mark ih =>
      have hinit : (List.range marks.length).map (markedPosition? (marks ++ [mark]))
          = (List.range marks.length).map (markedPosition? marks) :=
        List.map_congr_left fun id hid => markedPosition?_concat_of_lt mark (List.mem_range.mp hid)
      rw [List.foldl_concat, ih, List.length_append, List.length_singleton, List.range_succ,
        List.map_append, List.map_singleton, hinit, markedPosition?_concat_last, marked_concat]
      cases mark <;> simp

/-- **The new number of a marked node is its position among the marked nodes.** -/
lemma getElem?_renumbering (marks : Array Bool) {id : Nat} (hid : id ∈ marked marks.toList) :
    (Graph.renumbering marks)[id]? = some (some ((marked marks.toList).idxOf id)) := by
  have hlt : id < marks.size := by simpa using lt_of_mem_marked hid
  rw [Graph.renumbering, ← Array.foldl_toList, foldl_renumbering]
  simp [markedPosition?, hid, hlt]

/-- **The nodes that are left are the marked ones, in order.** -/
lemma filterMap_zip_eq {α β : Type} (f : α → β) (marks : List Bool) :
    ∀ nodes : List α, nodes.length = marks.length →
      (nodes.zip marks).filterMap (fun entry => if entry.2 then some (f entry.1) else none)
        = (marked marks).filterMap fun id => (nodes[id]?).map f := by
  induction marks using List.reverseRecOn with
  | nil => intro nodes hlen; simp [marked]
  | append_singleton marks mark ih =>
      intro nodes hlen
      obtain ⟨init, last, rfl⟩ : ∃ init last, nodes = init ++ [last] := by
        refine ⟨nodes.dropLast, nodes.getLast ?_, (List.dropLast_append_getLast _).symm⟩
        rintro rfl
        simp at hlen
      have hinit : init.length = marks.length := by simpa using hlen
      have hsame : ∀ id ∈ marked marks, ((init ++ [last])[id]?).map f = (init[id]?).map f := by
        intro id hid
        rw [List.getElem?_append_left (hinit ▸ lt_of_mem_marked hid)]
      rw [List.zip_append hinit, List.filterMap_append, ih init hinit, marked_concat,
        List.filterMap_append, List.filterMap_congr hsame]
      cases mark <;> simp [← hinit]

lemma getElem?_filterMap_of_isSome {α β : Type} {f : α → Option β} (list : List α) :
    (∀ x ∈ list, (f x).isSome) → ∀ i : Nat, (list.filterMap f)[i]? = (list[i]?).bind f := by
  induction list with
  | nil => simp
  | cons x list ih =>
      intro h i
      obtain ⟨y, hy⟩ := Option.isSome_iff_exists.mp (h x List.mem_cons_self)
      rw [List.filterMap_cons_some hy]
      cases i with
      | zero => simp [hy]
      | succ i => simpa using ih (fun z hz => h z (List.mem_cons_of_mem _ hz)) i

namespace Graph

variable {g pruned : Graph} {removed : Nat} {live : List Nat}

/-! ## The result -/

/-- **What removing dead code makes of a graph.**  `live` lists the nodes that are left, and the
position of a node in it is its new number.  A node that is left keeps its instruction and all of its
edges, which lead to the new numbers of their targets. -/
structure Prunes (g pruned : Graph) (removed : Nat) (live : List Nat) : Prop where
  ascending : live.Pairwise (· < ·)
  mem_live : ∀ id, id ∈ live ↔ Reaches g.successors g.entry id
  size_eq : pruned.size = live.length
  nodes : ∀ i id : Nat, live[i]? = some id →
    ∃ node, g.nodes[id]? = some node ∧ (∀ target ∈ node.targets, target ∈ live) ∧
      pruned.nodes[i]? = some (node.mapTargets live.idxOf)
  removed_eq : removed = (g.ids.filter (· ∉ live)).length

lemma renumber_eq {marks : Array Bool} {node : Node}
    (h : ∀ target ∈ node.targets, target ∈ marked marks.toList) :
    renumber (renumbering marks) node = node.mapTargets (marked marks.toList).idxOf := by
  have hlink : ∀ kind, ((node.edge kind).bind fun target => ((renumbering marks)[target]?).join)
      = (node.edge kind).map (marked marks.toList).idxOf := by
    intro kind
    cases hedge : node.edge kind with
    | none => rfl
    | some target =>
        have htarget := h target (Node.mem_targets.mpr ⟨kind, hedge⟩)
        simp [getElem?_renumbering marks htarget]
  refine Node.ext_edge rfl fun kind => ?_
  rw [Node.edge_mapTargets, ← hlink]
  cases kind <;> rfl

/-- **Removing dead code gives a result**, and the one described by `Prunes`. -/
lemma Closed.prune_eq (hg : g.Closed) (hentry : g.entry < g.size) :
    ∃ pruned removed live, g.prune = .ok (pruned, removed) ∧ Prunes g pruned removed live := by
  obtain ⟨marks, hmarks, hsize, hreach⟩ := reach_eq (closed_iff_successors.mp hg) hentry
  have hmem : ∀ id, id ∈ marked marks.toList ↔ Reaches g.successors g.entry id := by
    intro id
    rw [mem_marked, Array.getElem?_toList, hreach]
  have hlt : ∀ id ∈ marked marks.toList, id < g.size := by
    intro id hid
    simpa [hsize] using lt_of_mem_marked hid
  have hkept : ∀ id ∈ marked marks.toList, ∀ node, g.nodes[id]? = some node →
      ∀ target ∈ node.targets, target ∈ marked marks.toList := by
    intro id hid node hnode target htarget
    rw [hmem] at hid ⊢
    exact hid.tail (by rwa [successors_eq hnode])
  have hlist : ((g.nodes.zip marks).filterMap fun entry =>
      if entry.2 then some (renumber (renumbering marks) entry.1) else none).toList
        = (marked marks.toList).filterMap fun id =>
            (g.nodes[id]?).map (renumber (renumbering marks)) := by
    rw [Array.toList_filterMap, Array.toList_zip,
      filterMap_zip_eq _ _ _ (by simpa [size] using hsize.symm)]
    simp only [Array.getElem?_toList]
  have hsome : ∀ id ∈ marked marks.toList,
      ((g.nodes[id]?).map (renumber (renumbering marks))).isSome := by
    intro id hid
    simpa [size] using hlt id hid
  refine ⟨_, _, marked marks.toList, by rw [prune, reachableFrom, hmarks]; rfl, marked_ascending _,
    hmem, ?_, ?_, ?_⟩
  · rw [size, ← Array.length_toList, hlist, List.filterMap_length_eq_length]
    exact hsome
  · intro i id hid
    have hlive := List.mem_of_getElem? hid
    obtain ⟨node, hnode⟩ := nodes_eq_some_of_lt (hlt id hlive)
    refine ⟨node, hnode, hkept id hlive node hnode, ?_⟩
    rw [← Array.getElem?_toList, hlist, getElem?_filterMap_of_isSome _ hsome, hid, Option.bind_some,
      hnode, Option.map_some, renumber_eq (hkept id hlive node hnode)]
  · have hlen : marks.toList.length = g.size := hsize
    rw [← Array.count_toList, count_false_eq, ids, hlen]

namespace Prunes

variable (h : Prunes g pruned removed live) {i : Nat}

include h

lemma getElem?_live (hi : i < pruned.size) : live[i]? = some (live.getD i 0) := by
  have hlt : i < live.length := h.size_eq ▸ hi
  rw [List.getD_eq_getElem _ _ hlt, List.getElem?_eq_getElem hlt]

lemma old_of_getElem? {a : Nat} (ha : live[i]? = some a) : i < pruned.size ∧ live.getD i 0 = a := by
  have hlt : i < live.length := (List.getElem?_eq_some_iff.mp ha).1
  refine ⟨h.size_eq ▸ hlt, ?_⟩
  rw [List.getD_eq_getElem?_getD, ha, Option.getD_some]

lemma nodup : live.Nodup :=
  h.ascending.imp Nat.ne_of_lt

lemma entry_mem : g.entry ∈ live :=
  (h.mem_live g.entry).mpr (.refl g.successors g.entry)

/-- **The new graph is inside the old one.** -/
lemma embeds : Embeds (live.getD · 0) pruned g where
  closed := by
    refine closed_iff_successors.mpr fun i hi t ht => ?_
    obtain ⟨node, _, htargets, hnode⟩ := h.nodes i _ (h.getElem?_live hi)
    rw [Graph.successors_eq hnode, Node.targets_mapTargets, List.mem_map] at ht
    obtain ⟨target, htarget, rfl⟩ := ht
    rw [h.size_eq]
    exact List.idxOf_lt_length_of_mem (htargets target htarget)
  entry_lt := by
    rw [h.size_eq]
    exact List.length_pos_of_mem h.entry_mem
  entry_eq := by
    cases hlive : live with
    | nil => simpa [hlive] using h.entry_mem
    | cons first rest =>
        -- the entry is the least number there is
        have hmem := h.entry_mem
        have hsorted := h.ascending
        rw [hlive, List.mem_cons] at hmem
        rw [hlive, List.pairwise_cons] at hsorted
        rcases hmem with hfirst | hrest
        · exact hfirst.symm
        · exact absurd (hsorted.1 _ hrest) (Nat.not_lt_zero _)
  injective := by
    intro i hi j hj hij
    have hsame : live[i]? = live[j]? := by rw [h.getElem?_live hi, h.getElem?_live hj, hij]
    exact (List.getElem?_inj (h.size_eq ▸ hi) h.nodup).mp hsame
  nodes := by
    intro i node' hnode'
    obtain ⟨node, hold, htargets, hnode⟩ :=
      h.nodes i _ (h.getElem?_live (lt_size_of_eq_some hnode'))
    obtain rfl : node.mapTargets live.idxOf = node' := by simpa [hnode] using hnode'
    rw [hold, Node.mapTargets_mapTargets, Node.mapTargets_eq_self]
    intro t ht
    have hlt := List.idxOf_lt_length_of_mem (htargets t ht)
    rw [Function.comp_apply, List.getD_eq_getElem _ _ hlt, List.getElem_idxOf]

/-- All that is left is reached. -/
lemma reached : ∀ i < pruned.size, Reaches pruned.successors pruned.entry i := by
  intro i hi
  rw [← h.embeds.reaches_iff h.embeds.entry_lt hi, h.embeds.entry_eq, ← h.mem_live]
  exact List.mem_of_getElem? (h.getElem?_live hi)

end Prunes

/-- **Where every node is reached, nothing is removed.** -/
lemma Closed.prune_of_reached (hg : g.Closed) (hentry : g.entry < g.size)
    (hall : ∀ i < g.size, Reaches g.successors g.entry i) : g.prune = .ok (g, 0) := by
  obtain ⟨pruned, removed, live, heq, h⟩ := hg.prune_eq hentry
  have hlive : live = List.range g.size := by
    refine h.ascending.eq_of_mem_iff List.pairwise_lt_range fun id => ?_
    rw [h.mem_live, List.mem_range]
    exact ⟨fun hid => (hg.dominates_lt hentry (.refl hid)).1, hall id⟩
  subst hlive
  have hsize : pruned.size = g.size := by simpa using h.size_eq
  have hnodes : pruned.nodes = g.nodes := by
    refine Array.ext_getElem? fun i => ?_
    by_cases hi : i < g.size
    · obtain ⟨node, hold, htargets, hnode⟩ := h.nodes i i (List.getElem?_range hi)
      rw [hold, hnode, Node.mapTargets_eq_self]
      intro t ht
      have hlt := List.idxOf_lt_length_of_mem (htargets t ht)
      rw [← List.getElem_range hlt, List.getElem_idxOf]
    · have hpruned : pruned.size ≤ i := hsize ▸ Nat.not_lt.mp hi
      rw [Array.getElem?_eq_none (Nat.not_lt.mp hi), Array.getElem?_eq_none hpruned]
  have hremoved : removed = 0 := by
    simp [h.removed_eq, ids]
  rw [heq, hremoved, show pruned = g from congrArg Graph.mk hnodes]

/-! ## What is preserved -/

namespace Prunes

variable (h : Prunes g pruned removed live)

include h

/-- **The loops are the old ones with headers that are left**, and so the paths are the same. -/
lemma loops_eq (hg : g.Closed) :
    ∃ loops loops', g.loops = .ok loops ∧ pruned.loops = .ok loops' ∧
      loops'.map (Loop.outline (live.getD · 0))
        = (loops.filter (·.header ∈ live)).map (Loop.outline id) ∧
      ∀ limits, ∃ found, pruned.paths loops' limits = .ok found ∧
        g.paths loops limits = .ok (found.rename (live.getD · 0)) := by
  obtain ⟨loops', first, others, hloops', hloops, heq, hlt', hlt, hfirst, hothers⟩ :=
    h.embeds.loops_eq hg h.reached
  refine ⟨_, loops', hloops, hloops', ?_, fun limits => ?_⟩
  · have hin : first.filter (·.header ∈ live) = first :=
      List.filter_eq_self.mpr fun l hl => by simpa [h.mem_live] using hfirst l hl
    have hout : others.filter (·.header ∈ live) = [] :=
      List.filter_eq_nil_iff.mpr fun l hl => by simpa [h.mem_live] using hothers l hl
    rw [List.filter_append, hin, hout, List.append_nil, heq]
  · have hways : ∀ i < pruned.size,
        waysOut (first ++ others) (live.getD i 0) = (waysOut loops' i).map (live.getD · 0) :=
      fun i => h.embeds.waysOut_eq h.reached heq (fun l hl => (hlt' l hl).1) hothers
    exact h.embeds.paths_eq hg (fun l hl => (hlt' l hl).2) hlt hways limits

lemma dominance_eq (hg : g.Closed) (hentry : g.entry < g.size) :
    ∃ d d', g.dominance = .ok d ∧ pruned.dominance = .ok d' ∧
      ∀ i j a b : Nat, live[i]? = some a → live[j]? = some b →
        d'.dominates i j = d.dominates a b := by
  obtain ⟨d, hd, hanswers⟩ := hg.dominance_eq hentry
  obtain ⟨d', hd', hanswers'⟩ := h.embeds.closed.dominance_eq h.embeds.entry_lt
  refine ⟨d, d', hd, hd', fun i j a b ha hb => ?_⟩
  obtain ⟨hi, rfl⟩ := h.old_of_getElem? ha
  obtain ⟨hj, rfl⟩ := h.old_of_getElem? hb
  rw [Bool.eq_iff_iff, hanswers.dominates_iff, hanswers'.dominates_iff, h.embeds.dominates_iff hi hj]

lemma postDominance_eq (hg : g.Closed) :
    ∃ p p', g.postDominance = .ok p ∧ pruned.postDominance = .ok p' ∧
      ∀ i j a b : Nat, live[i]? = some a → live[j]? = some b →
        p'.any (·.dominates i j) = p.any (·.dominates a b) := by
  obtain ⟨p, hp, hdom⟩ := hg.postDominance_any
  obtain ⟨p', hp', hdom'⟩ := h.embeds.closed.postDominance_any
  refine ⟨p, p', hp, hp', fun i j a b ha hb => ?_⟩
  obtain ⟨hi, rfl⟩ := h.old_of_getElem? ha
  obtain ⟨hj, rfl⟩ := h.old_of_getElem? hb
  rw [Bool.eq_iff_iff, hdom, hdom', h.embeds.postDominates_iff hi hj]

end Prunes

/-- **Removing dead code preserves what can be observed from the entry.**  The nodes that are left are
those that the entry reaches, in the old order, with their instructions and all of their edges; doing
it again does nothing.  Up to the numbers, the loops are the old ones with headers that are left, the
paths are the same within all limits, and so are dominance and post-dominance, where nothing dominates
anything if there is no answer. -/
theorem prune_preserves (g : Graph) (hg : g.Closed) (hentry : g.entry < g.size) :
    ∃ pruned removed live, g.prune = .ok (pruned, removed) ∧ Prunes g pruned removed live ∧
      pruned.prune = .ok (pruned, 0) ∧
      (∃ loops loops', g.loops = .ok loops ∧ pruned.loops = .ok loops' ∧
        loops'.map (Loop.outline (live.getD · 0))
          = (loops.filter (·.header ∈ live)).map (Loop.outline id) ∧
        ∀ limits, ∃ found, pruned.paths loops' limits = .ok found ∧
          g.paths loops limits = .ok (found.rename (live.getD · 0))) ∧
      (∃ d d', g.dominance = .ok d ∧ pruned.dominance = .ok d' ∧
        ∀ i j a b : Nat, live[i]? = some a → live[j]? = some b →
          d'.dominates i j = d.dominates a b) ∧
      ∃ p p', g.postDominance = .ok p ∧ pruned.postDominance = .ok p' ∧
        ∀ i j a b : Nat, live[i]? = some a → live[j]? = some b →
          p'.any (·.dominates i j) = p.any (·.dominates a b) := by
  obtain ⟨pruned, removed, live, heq, h⟩ := hg.prune_eq hentry
  refine ⟨pruned, removed, live, heq, h, ?_, h.loops_eq hg, h.dominance_eq hg hentry,
    h.postDominance_eq hg⟩
  exact h.embeds.closed.prune_of_reached h.embeds.entry_lt h.reached

/-- The nodes of the sample graph that are left. -/
def sampleLive : List Nat := [0, 1, 3, 4, 5, 6]

/-- One walk passes all that the entry of the sample graph reaches. -/
lemma mem_sampleLive {id : Nat} : id ∈ sampleLive ↔ Reaches sample.successors sample.entry id := by
  constructor
  · intro hid
    have hwalk : Walk sample.successors 0 6 sampleLive :=
      .cons (by decide) (.cons (by decide) (.cons (by decide) (.cons (by decide)
        (.cons (by decide) (.single 6)))))
    obtain ⟨init, tail, _, hinit, _⟩ := hwalk.split hid
    exact ⟨_, hinit⟩
  · intro hreach
    exact hreach.preserves (P := (· ∈ sampleLive)) (by decide) (by decide)

/-- In the sample graph the node that nothing leads to is removed, and what can be observed from the entry
is found under the new numbers: the loop, the paths, the jump that heads the loop and that all ways to the
exit pass, and the exit itself. -/
theorem prune_sample :
    sample.Closed ∧ sample.entry < sample.size ∧
      ∃ pruned, sample.prune = .ok (pruned, 1) ∧ Prunes sample pruned 1 sampleLive ∧
        pruned.prune = .ok (pruned, 0) ∧
        (∃ loops found, pruned.loops = .ok loops ∧
          loops.map (Loop.outline (sampleLive.getD · 0)) = [(1, [1, 3, 4], some 5)] ∧
          pruned.paths loops .none = .ok found ∧
          found.rename (sampleLive.getD · 0)
            = ⟨#[[0, 1, 3, 4, 5], [0, 1, 3, 4, 5], [0, 1, 5]], false⟩) ∧
        (∃ d, pruned.dominance = .ok d ∧ d.dominates 1 4 = true ∧ d.dominates 3 4 = false) ∧
        ∃ p, pruned.postDominance = .ok p ∧ p.any (·.dominates 4 0) = true := by
  obtain ⟨pruned, removed, live, heq, h, htwice, ⟨loops, loops', hloops, hloops', hheaders, hpaths⟩,
    ⟨d, d', hd, hd', hdom⟩, p, p', hp, hp', hpost⟩ := prune_preserves sample (by decide) (by decide)
  obtain rfl : live = sampleLive :=
    h.ascending.eq_of_mem_iff (by decide) fun id => (h.mem_live id).trans mem_sampleLive.symm
  obtain rfl : removed = 1 := h.removed_eq.trans (by decide)
  obtain rfl := Except.ok.inj (hloops.symm.trans loops_sample)
  obtain ⟨inner, hinner, hanswers⟩ := Closed.dominance_eq (g := sample) (by decide) (by decide)
  obtain rfl := Except.ok.inj (hd.symm.trans hinner)
  obtain ⟨outer, houter, hany⟩ := Closed.postDominance_any (g := sample) (by decide)
  obtain rfl := Except.ok.inj (hp.symm.trans houter)
  refine ⟨by decide, by decide, pruned, heq, h, htwice, ?_, ⟨d', hd', ?_, ?_⟩, p', hp', ?_⟩
  · obtain ⟨found, hfound, hold⟩ := hpaths .none
    have hrun : sample.paths [⟨1, some 5, [1, 3, 4], [], []⟩] .none
        = .ok ⟨#[[0, 1, 3, 4, 5], [0, 1, 3, 4, 5], [0, 1, 5]], false⟩ := by cbv
    refine ⟨loops', found, hloops', hheaders.trans (by decide), hfound, ?_⟩
    exact Except.ok.inj (hold.symm.trans hrun)
  · rw [hdom 1 4 1 5 rfl rfl, hanswers.dominates_iff]
    exact sample_dominates
  · rw [hdom 3 4 4 5 rfl rfl, ← Bool.not_eq_true, hanswers.dominates_iff]
    exact sample_not_dominates
  · rw [hpost 4 0 5 0 rfl rfl, hany]
    exact sample_postDominates

end Graph

end BytecodeFlow
