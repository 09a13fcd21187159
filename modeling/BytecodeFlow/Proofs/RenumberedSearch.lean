import Mathlib
import BytecodeFlow.Proofs.LoopSearch
import BytecodeFlow.Proofs.PathSearch
import BytecodeFlow.Proofs.Renumbering

/-!
# Searching a graph inside another one

When a graph is inside another one under other numbers (`Graph.Embeds`), a search that starts in the
part takes the same steps in both.

**Paths.**  The tries of the two searches are the same up to the numbers (`tries_eq`), so they are
cut short by the same limits at the same point (`cut_map`), and the paths are the same
(`paths_eq`).

**Loops.**  `Scan.Matches` relates the states of the two searches.  Every step keeps it
(`Matches.run`), because the ways through the code are the same (`chain?_eq`) and so are the ways
out of a body (`wayOut?_eq`).  The search of the larger graph then goes on where the smaller one has
nothing left; the loops it adds have headers outside the part (`loops_eq`), so they give no node of
the part another way out (`waysOut_eq`).
-/

namespace BytecodeFlow

variable {old : Nat → Nat} {small big : Graph}

/-! ## Paths -/

/-- Paths under other numbers. -/
def PathSet.rename (f : Nat → Nat) (set : PathSet) : PathSet :=
  ⟨set.paths.map (List.map f), set.truncated⟩

/-- Limits look at the number of paths and tries only. -/
lemma cut_map (limits : Limits) (f : Nat → Nat) (list : List (Option (List Nat))) :
    ∀ (steps : Nat) (found : Array (List Nat)),
      limits.cut steps (found.map (List.map f)) (list.map (Option.map (List.map f)))
        = (limits.cut steps found list).rename f := by
  induction list with
  | nil => intro steps found; rfl
  | cons entry rest ih =>
      intro steps found
      cases entry with
      | none =>
          simp only [List.map_cons, Option.map_none, Limits.cut, ih]
          split_ifs <;> rfl
      | some path =>
          simp only [List.map_cons, Option.map_some, Limits.cut, Array.size_map, ← Array.map_push, ih]
          split_ifs <;> rfl

namespace Graph.Embeds

variable {loops loops' : List Loop} {i : Nat} (h : Embeds old small big)

include h

/-- **The tries carry over.** -/
lemma tries_eq {next next' : Nat → List Nat} (hnext : ∀ i < small.size, next' (old i) = (next i).map old)
    (hlt : ∀ i, ∀ x ∈ next i, x < small.size) (trail : List Nat) (id : Nat) (hid : id < small.size)
    (htrail : ∀ x ∈ trail, x < small.size) :
    tries big.size next' big.isExit (trail.map old) (old id)
      = (tries small.size next small.isExit trail id).map (Option.map (List.map old)) := by
  have hguard : ∀ {trail : List Nat} {id : Nat}, id < small.size → (∀ x ∈ trail, x < small.size) →
      (old id ∈ trail.map old ∨ big.size ≤ old id ↔ id ∈ trail ∨ small.size ≤ id) := by
    intro trail id hid htrail
    rw [h.mem_map_iff hid htrail, or_iff_left (Nat.not_le.mpr (h.lt_size hid)),
      or_iff_left (Nat.not_le.mpr hid)]
  fun_induction tries small.size next small.isExit trail id with
  | case1 trail id hskip =>
      rw [tries, if_pos ((hguard hid htrail).mpr hskip)]
      rfl
  | case2 trail id hskip hexit =>
      rw [tries, if_neg (mt (hguard hid htrail).mp hskip), if_pos (by rw [h.isExit_eq hid, hexit])]
      simp
  | case3 trail id hskip hexit ih =>
      rw [tries, if_neg (mt (hguard hid htrail).mp hskip), if_neg (by rwa [h.isExit_eq hid]),
        hnext id hid, List.flatMap_map, List.map_cons, List.map_flatMap]
      refine congrArg (none :: ·) (List.flatMap_congr fun child hchild => ?_)
      exact ih child (hlt id child hchild) (by simpa [hid] using htrail)

lemma foldl_addNew_eq (ids : List Nat) :
    ∀ list : List Nat, (∀ x ∈ list, x < small.size) → (∀ x ∈ ids, x < small.size) →
      (ids.map old).foldl addNew (list.map old) = (ids.foldl addNew list).map old := by
  induction ids with
  | nil => intros; rfl
  | cons id rest ih =>
      intro list hlist hids
      have hid : id < small.size := hids id List.mem_cons_self
      have hadd : addNew (list.map old) (old id) = (addNew list id).map old := by
        simp only [addNew, List.contains_iff_mem, h.mem_map_iff hid hlist]
        split_ifs <;> simp
      rw [List.map_cons, List.foldl_cons, List.foldl_cons, hadd]
      refine ih (addNew list id) (fun x hx => ?_) fun x hx => hids x (List.mem_cons_of_mem _ hx)
      unfold addNew at hx
      split_ifs at hx
      · exact hlist x hx
      · rcases List.mem_append.mp hx with hx | hx
        · exact hlist x hx
        · obtain rfl : x = id := by simpa using hx
          exact hid

/-- The nodes to go on to carry over where the ways out of loops do. -/
lemma choices_eq (hloops : ∀ l ∈ loops, ∀ exit ∈ l.exit, exit < small.size) (hi : i < small.size)
    (hways : waysOut loops' (old i) = (waysOut loops i).map old) :
    big.choices loops' (old i) = (small.choices loops i).map old := by
  rw [← onward_eq_choices, ← onward_eq_choices, onward, onward, hways, h.successors_eq hi]
  refine h.foldl_addNew_eq _ _ (fun x hx => h.closed.lt_of_mem_successors hx) fun x hx => ?_
  obtain ⟨l, hl, hexit⟩ := List.mem_filterMap.mp hx
  exact hloops l (List.mem_of_mem_filter hl) x hexit

/-- **The paths carry over**, within any limits, where the ways out of loops do. -/
lemma paths_eq (hbig : big.Closed) (hloops : ∀ l ∈ loops, ∀ exit ∈ l.exit, exit < small.size)
    (hloops' : ∀ l ∈ loops', ∀ exit ∈ l.exit, exit < big.size)
    (hways : ∀ i < small.size, waysOut loops' (old i) = (waysOut loops i).map old)
    (limits : Limits) :
    ∃ found, small.paths loops limits = .ok found ∧ big.paths loops' limits = .ok (found.rename old) := by
  have hchoices : ∀ i < small.size, big.choices loops' (old i) = (small.choices loops i).map old :=
    fun i hi => h.choices_eq hloops hi (hways i hi)
  have hexit : big.isExit big.entry = small.isExit small.entry := by
    rw [← h.entry_eq, h.isExit_eq h.entry_lt]
  by_cases hentry : small.isExit small.entry = true
  · rw [paths, paths, hexit, if_pos hentry, if_pos hentry]
    split_ifs
    · exact ⟨_, rfl, by simp [PathSet.rename]⟩
    · exact ⟨_, rfl, by simp [PathSet.rename, h.entry_eq]⟩
  · have hopen : small.isExit small.entry = false := by simpa using hentry
    have hlt : ∀ i, ∀ x ∈ small.choices loops i, x < small.size :=
      fun i x => h.closed.lt_of_mem_choices hloops
    refine ⟨_, h.closed.paths_eq hloops h.entry_lt hopen limits, ?_⟩
    rw [hbig.paths_eq hloops' (h.entry_eq ▸ h.lt_size h.entry_lt) (hexit.trans hopen) limits,
      ← cut_map, Array.map_empty, ← h.entry_eq, hchoices small.entry h.entry_lt, List.flatMap_map,
      List.map_flatMap]
    refine congrArg (fun list => Except.ok (limits.cut 0 #[] list)) (List.flatMap_congr ?_)
    intro child hchild
    exact h.tries_eq hchoices hlt [small.entry] child (hlt _ child hchild) (by simpa using h.entry_lt)

end Graph.Embeds

/-! ## Ways through the code -/

/-- The header, the body and the way out of a loop, under other numbers. -/
def Loop.outline (f : Nat → Nat) (l : Loop) : Nat × List Nat × Option Nat :=
  (f l.header, l.nodes.map f, l.exit.map f)

namespace Graph.Embeds

variable {header tail : Nat} {body : List Nat} (h : Embeds old small big)

include h

lemma following?_eq {i : Nat} (hi : i < small.size) :
    big.following? (old i) = (small.following? i).map old := by
  obtain ⟨node, hnode⟩ := nodes_eq_some_of_lt hi
  rw [following?, following?, hnode, h.nodes i node hnode]
  rfl

lemma chainWithin_eq (n : Nat) (hheader : header < small.size) (htail : tail < small.size) :
    big.chainWithin n (old header) (old tail)
      = (small.chainWithin n header tail).map (List.map old) := by
  induction n generalizing header with
  | zero => rfl
  | succ n ih =>
      rw [chainWithin, chainWithin, h.following?_eq hheader]
      by_cases heq : header = tail
      · simp [heq]
      · rw [if_neg heq, if_neg (mt (h.injective header hheader tail htail) heq)]
        cases hnext : small.following? header with
        | none => rfl
        | some following =>
            have hlt := h.closed.lt_of_mem_successors (following?_mem_successors hnext)
            simp only [Option.map_some, Option.bind_some, ih hlt, Option.map_map]
            rfl

/-- **The ways through the code carry over.** -/
lemma chain?_eq (hbig : big.Closed) (hheader : header < small.size) (htail : tail < small.size) :
    big.chain? (old header) (old tail) = (small.chain? header tail).map (List.map old) := by
  rw [← hbig.chainWithin_eq_chain? (h.lt_size hheader) (Nat.le_max_right small.size big.size),
    ← h.closed.chainWithin_eq_chain? hheader (Nat.le_max_left small.size big.size),
    h.chainWithin_eq _ hheader htail]

lemma wayOut?_eq (hbody : ∀ x ∈ body, x < small.size) :
    big.wayOut? (body.map old) = (small.wayOut? body).map old := by
  have hsucc : (body.map old).flatMap big.successors = (body.flatMap small.successors).map old := by
    rw [List.flatMap_map, List.map_flatMap]
    exact List.flatMap_congr fun x hx => h.successors_eq (hbody x hx)
  rw [wayOut?, wayOut?, hsucc, List.find?_map]
  refine congrArg (Option.map old) (List.find?_congr fun x hx => ?_)
  obtain ⟨y, _, hxy⟩ := List.mem_flatMap.mp hx
  have hcontains : (body.map old).contains (old x) = body.contains x := by
    rw [Bool.eq_iff_iff, List.contains_iff_mem, List.contains_iff_mem,
      h.mem_map_iff (h.closed.lt_of_mem_successors hxy) hbody]
  rw [Function.comp_apply, Std.HashSet.contains_ofList, Std.HashSet.contains_ofList, hcontains]

/-- A loop carries over in its header, its body and its way out. -/
lemma outline_loopOf (hbody : ∀ x ∈ body, x < small.size) :
    (big.loopOf (old header) (body.map old)).outline id = (small.loopOf header body).outline old := by
  simp only [Loop.outline, loopOf, h.wayOut?_eq hbody, id_eq, List.map_id_fun, Option.map_id_fun]

end Graph.Embeds

/-! ## Loops -/

/-- A frame under other numbers. -/
def Frame.rename (f : Nat → Nat) (frame : Frame) : Frame :=
  ⟨f frame.node, frame.left.map f⟩

/-- **Two searches stand at the same point**: the visits agree on the part, and so do the loops in
header, body and way out. -/
structure Scan.Matches (old : Nat → Nat) (small : Graph) (scan scan' : Scan) : Prop where
  visits : ∀ i < small.size, scan'.visits[old i]? = scan.visits[i]?
  loops : scan'.loops.toList.map (Loop.outline id) = scan.loops.toList.map (Loop.outline old)

namespace Scan.Matches

variable {scan scan' result : Scan} {node : Nat} {frames : List Frame}
  (h : small.Embeds old big)

include h

lemma getElem?_set {marks marks' : Array Visit}
    (hmarks : ∀ i < small.size, marks'[old i]? = marks[i]?) (hnode : node < small.size) (v : Visit) :
    ∀ i < small.size,
      (marks'.setIfInBounds (old node) v)[old i]? = (marks.setIfInBounds node v)[i]? := by
  intro i hi
  have hbound : old node < marks'.size ↔ node < marks.size := by
    rw [← not_iff_not, Nat.not_lt, Nat.not_lt, ← Array.getElem?_eq_none_iff, hmarks node hnode,
      Array.getElem?_eq_none_iff]
  rw [Array.getElem?_setIfInBounds, Array.getElem?_setIfInBounds]
  by_cases heq : node = i
  · simp [heq, heq ▸ hbound]
  · rw [if_neg heq, if_neg (mt (h.injective node hnode i hi) heq), hmarks i hi]

lemma enter (hm : Matches old small scan scan') (hnode : node < small.size) :
    Matches old small (scan.enter node) (scan'.enter (old node)) :=
  ⟨getElem?_set h hm.visits hnode .active, hm.loops⟩

lemma leave (hm : Matches old small scan scan') (hnode : node < small.size) :
    Matches old small (scan.leave node) (scan'.leave (old node)) :=
  ⟨getElem?_set h hm.visits hnode .done, hm.loops⟩

lemma close {header : Nat} (hm : Matches old small scan scan') (hbig : big.Closed)
    (hheader : header < small.size) (hnode : node < small.size) :
    Matches old small (scan.close small header node) (scan'.close big (old header) (old node)) := by
  refine ⟨by rw [visits_close, visits_close]; exact hm.visits, ?_⟩
  rw [Scan.close, Scan.close, h.chain?_eq hbig hheader hnode]
  cases hchain : small.chain? header node with
  | none => exact hm.loops
  | some body =>
      have hbody := h.closed.lt_of_mem_chain hheader hchain
      simp only [Option.map_some, Array.toList_push, List.map_append, hm.loops, List.map_cons,
        List.map_nil, h.outline_loopOf hbody]

/-- **The two searches take the same steps.** -/
lemma run (hbig : big.Closed) (hm : Matches old small scan scan')
    (hframes : ∀ frame ∈ frames, frame.node < small.size ∧ ∀ x ∈ frame.left, x < small.size)
    (hresult : Scan.run small scan frames = .ok result) :
    ∃ result', Scan.run big scan' (frames.map (Frame.rename old)) = .ok result' ∧
      Matches old small result result' := by
  fun_induction Scan.run small scan frames generalizing scan' with
  | case1 scan =>
      obtain rfl : scan = result := by simpa using hresult
      exact ⟨scan', by rw [List.map_nil, Scan.run], hm⟩
  | case2 scan node rest ih =>
      obtain ⟨⟨hnode, _⟩, hrest⟩ := List.forall_mem_cons.mp hframes
      obtain ⟨result', hrun, hend⟩ := ih (hm.leave h hnode) hrest hresult
      exact ⟨result', by rw [List.map_cons, Frame.rename, List.map_nil, Scan.run_leave, hrun], hend⟩
  | case3 scan node id left rest hlt hv ih =>
      obtain ⟨⟨hnode, hleft⟩, hrest⟩ := List.forall_mem_cons.mp hframes
      obtain ⟨hid, hleft⟩ := List.forall_mem_cons.mp hleft
      have hsucc : ∀ x ∈ small.successors id, x < small.size :=
        fun x => h.closed.lt_of_mem_successors
      obtain ⟨result', hrun, hend⟩ := ih (hm.enter h hid)
        (by simpa only [List.forall_mem_cons] using ⟨⟨hid, hsucc⟩, ⟨hnode, hleft⟩, hrest⟩) hresult
      refine ⟨result', ?_, hend⟩
      rw [← hrun, List.map_cons, Frame.rename, List.map_cons, Scan.run_fresh, List.map_cons,
        List.map_cons, Frame.rename, Frame.rename, h.successors_eq hid]
      rw [hm.visits id hid, Array.getElem?_eq_getElem hlt, hv]
  | case4 scan node id left rest hlt hv ih =>
      obtain ⟨⟨hnode, hleft⟩, hrest⟩ := List.forall_mem_cons.mp hframes
      obtain ⟨hid, hleft⟩ := List.forall_mem_cons.mp hleft
      obtain ⟨result', hrun, hend⟩ := ih (hm.close h hbig hid hnode)
        (List.forall_mem_cons.mpr ⟨⟨hnode, hleft⟩, hrest⟩) hresult
      refine ⟨result', ?_, hend⟩
      rw [← hrun, List.map_cons, Frame.rename, List.map_cons, Scan.run_active, List.map_cons,
        Frame.rename]
      rw [hm.visits id hid, Array.getElem?_eq_getElem hlt, hv]
  | case5 scan node id left rest hlt hv ih =>
      obtain ⟨⟨hnode, hleft⟩, hrest⟩ := List.forall_mem_cons.mp hframes
      obtain ⟨hid, hleft⟩ := List.forall_mem_cons.mp hleft
      obtain ⟨result', hrun, hend⟩ := ih hm
        (List.forall_mem_cons.mpr ⟨⟨hnode, hleft⟩, hrest⟩) hresult
      refine ⟨result', ?_, hend⟩
      rw [← hrun, List.map_cons, Frame.rename, List.map_cons, Scan.run_done, List.map_cons,
        Frame.rename]
      rw [hm.visits id hid, Array.getElem?_eq_getElem hlt, hv]
  | case6 scan node id left rest hlt => simp at hresult

lemma start : Matches old small (Scan.start small) (Scan.start big) := by
  refine ⟨fun i hi => ?_, rfl⟩
  simp [Scan.start, hi, h.lt_size hi]

end Scan.Matches

/-- **The loops carry over.** -/
lemma Graph.Embeds.loops_eq (h : small.Embeds old big) (hbig : big.Closed)
    (hall : ∀ i < small.size, Reaches small.successors small.entry i) :
    ∃ loops first others, small.loops = .ok loops ∧ big.loops = .ok (first ++ others) ∧
      first.map (Loop.outline id) = loops.map (Loop.outline old) ∧
      (∀ l ∈ loops, l.header < small.size ∧ ∀ exit ∈ l.exit, exit < small.size) ∧
      (∀ l ∈ first ++ others, ∀ exit ∈ l.exit, exit < big.size) ∧
      (∀ l ∈ first, Reaches big.successors big.entry l.header) ∧
      ∀ l ∈ others, ¬Reaches big.successors big.entry l.header := by
  have hentry : big.entry < big.size := h.entry_eq ▸ h.lt_size h.entry_lt
  obtain ⟨scan, rest, hrun, hloops, _, hrest, hloop⟩ := h.closed.loops_eq h.entry_lt
  obtain ⟨scan', others, hrun', hloops', _, hothers, hloop'⟩ := hbig.loops_eq hentry
  -- the first search of `small` visits every node, so it is the only one
  have hnil : rest = [] := by
    refine List.eq_nil_iff_forall_not_mem.mpr fun l hl => ?_
    exact hrest l hl (hall _ (hloop l (List.mem_append_right _ hl)).1)
  subst hnil
  rw [List.append_nil] at hloops hloop
  have hmatch : Scan.Matches old small scan scan' := by
    have hframe : ∀ frame ∈ [(⟨small.entry, small.successors small.entry⟩ : Frame)],
        frame.node < small.size ∧ ∀ x ∈ frame.left, x < small.size := by
      simpa using ⟨h.entry_lt, fun x => h.closed.lt_of_mem_successors⟩
    obtain ⟨end', hend, hmatch⟩ :=
      Scan.Matches.run h hbig ((Scan.Matches.start h).enter h h.entry_lt) hframe hrun
    rw [List.map_singleton, Frame.rename, ← h.successors_eq h.entry_lt, h.entry_eq, hrun'] at hend
    rwa [Except.ok.inj hend]
  refine ⟨_, _, others, hloops, hloops', hmatch.loops, fun l hl => ⟨(hloop l hl).1, ?_⟩, ?_, ?_,
    hothers⟩
  · obtain ⟨_, body, hl⟩ := hloop l hl
    rw [hl]
    exact fun exit => h.closed.exit_loopOf_lt
  · intro l hl
    obtain ⟨_, body, hl⟩ := hloop' l hl
    rw [hl]
    exact fun exit => hbig.exit_loopOf_lt
  · intro l hl
    have hmem : l.outline id ∈ scan.loops.toList.map (Loop.outline old) :=
      hmatch.loops ▸ List.mem_map_of_mem hl
    obtain ⟨l', hl', heq⟩ := List.mem_map.mp hmem
    have hheader : old l'.header = l.header := congrArg Prod.fst heq
    rw [← hheader, ← h.entry_eq, h.reaches_iff h.entry_lt (hloop l' hl').1]
    exact hall _ (hloop l' hl').1

/-- The ways out of the loops with a given header, read off their outlines. -/
lemma filterMap_outline (f : Nat → Nat) (loops : List Loop) (header : Nat) :
    (loops.map (Loop.outline f)).filterMap (fun o => if o.1 = header then o.2.2 else none)
      = ((loops.filter fun l => f l.header = header).filterMap (·.exit)).map f := by
  rw [List.filterMap_map, List.filterMap_filter, List.map_filterMap]
  refine List.filterMap_congr fun l _ => ?_
  by_cases hl : f l.header = header <;> simp [Loop.outline, hl]

/-- **The ways out of loops carry over**, and with them the paths. -/
lemma Graph.Embeds.waysOut_eq {loops first others : List Loop} (h : small.Embeds old big)
    (hall : ∀ i < small.size, Reaches small.successors small.entry i)
    (heq : first.map (Loop.outline id) = loops.map (Loop.outline old))
    (hloops : ∀ l ∈ loops, l.header < small.size)
    (hothers : ∀ l ∈ others, ¬Reaches big.successors big.entry l.header) {i : Nat}
    (hi : i < small.size) : waysOut (first ++ others) (old i) = (waysOut loops i).map old := by
  have hfirst : waysOut first (old i) = (waysOut loops i).map old := by
    have hheader : ∀ l ∈ loops, decide (old l.header = old i) = decide (l.header = i) := by
      intro l hl
      exact decide_eq_decide.mpr ⟨h.injective _ (hloops l hl) i hi, congrArg old⟩
    have hsame := filterMap_outline id first (old i)
    rw [heq, filterMap_outline, List.filter_congr hheader, List.map_id] at hsame
    exact hsame.symm
  have hnone : others.filter (fun l => l.header = old i) = [] := by
    refine List.filter_eq_nil_iff.mpr fun l hl hheader => hothers l hl ?_
    rw [of_decide_eq_true hheader, ← h.entry_eq, h.reaches_iff h.entry_lt hi]
    exact hall i hi
  rw [waysOut, List.filter_append, hnone, List.append_nil, ← hfirst, waysOut]

end BytecodeFlow
