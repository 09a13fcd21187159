import Mathlib
import BytecodeFlow.Proofs.RepeatedPaths

/-!
# Where paths with shortcuts end

At the header of a loop a path may go on to the way out of the loop, although no slot leads there.  This
file says at which exits paths can end, with such shortcuts and without.

**Ends.**  `ReachesBy` says that a walk leads from one node to another and that all nodes before its end
have a property.  A walk that repeats a node can be shortened without losing that
(`ReachesBy.exists_nodup`), so the exits at which paths end are those that a walk reaches that meets no
exit before (`Closed.endsAt_iff`), and shortcuts can only add to them.

**Shortcuts.**  A shortcut stands for a walk through the body of its loop up to the first node that leads
out of it (`reachesBy_exit`).  The nodes before that one are the run-up of the loop, and the body is only
followed through the code, so one of them may be an exit that no path goes on from.  Such an exit is all
that the walk behind a path can meet before its end.
-/

namespace BytecodeFlow

variable {next : Nat → List Nat} {P : Nat → Prop} {a b c : Nat} {path : List Nat}

/-! ## Ends -/

/-- **A walk leads from one node to another**, and all nodes before its end have a property. -/
def ReachesBy (next : Nat → List Nat) (P : Nat → Prop) (a b : Nat) : Prop :=
  ∃ path, Walk next a b path ∧ ∀ x ∈ path.dropLast, P x

lemma walk_iff_isChain :
    Walk next a b path ↔
      path.head? = some a ∧ path.getLast? = some b ∧ path.IsChain fun x y => y ∈ next x := by
  constructor
  · intro h
    induction h with
    | single a => simp
    | @cons a b c path hab h ih =>
        obtain ⟨tail, rfl⟩ := h.exists_eq_cons
        exact ⟨rfl, by simpa using ih.2.1, List.isChain_cons_cons.mpr ⟨hab, ih.2.2⟩⟩
  · rintro ⟨hhead, hlast, hchain⟩
    induction path generalizing a with
    | nil => simp at hhead
    | cons x path ih =>
        obtain rfl : x = a := by simpa using hhead
        cases path with
        | nil =>
            obtain rfl : x = b := by simpa using hlast
            exact .single x
        | cons y path =>
            obtain ⟨hxy, hchain⟩ := List.isChain_cons_cons.mp hchain
            exact .cons hxy (ih rfl (by simpa using hlast) hchain)

namespace ReachesBy

lemma refl (next : Nat → List Nat) (P : Nat → Prop) (a : Nat) : ReachesBy next P a a :=
  ⟨[a], .single a, by simp⟩

lemma edge (ha : P a) (hab : b ∈ next a) : ReachesBy next P a b :=
  ⟨[a, b], .cons hab (.single b), by simpa using ha⟩

lemma trans (h : ReachesBy next P a b) (h' : ReachesBy next P b c) : ReachesBy next P a c := by
  obtain ⟨path, hpath, hP⟩ := h
  obtain ⟨path', hpath', hP'⟩ := h'
  obtain ⟨init, rfl⟩ := hpath.exists_eq_append
  obtain ⟨tail, rfl⟩ := hpath'.exists_eq_cons
  refine ⟨init ++ [b] ++ tail, hpath.append hpath', fun x hx => ?_⟩
  rw [List.append_assoc, List.singleton_append, List.dropLast_append_of_ne_nil (by simp)] at hx
  rcases List.mem_append.mp hx with hx | hx
  · exact hP x (by simpa using hx)
  · exact hP' x hx

lemma mono {other : Nat → List Nat} {Q : Nat → Prop} (h : ReachesBy next P a b)
    (hnext : ∀ x, ∀ y ∈ next x, y ∈ other x) (hP : ∀ x, P x → Q x) : ReachesBy other Q a b := by
  obtain ⟨path, hpath, hinside⟩ := h
  obtain ⟨hhead, hlast, hchain⟩ := walk_iff_isChain.mp hpath
  exact ⟨path, walk_iff_isChain.mpr ⟨hhead, hlast, hchain.imp hnext⟩,
    fun x hx => hP x (hinside x hx)⟩

/-- Where every step of a path stands for a walk, the path does. -/
lemma of_steps (hhead : path.head? = some a) (hlast : path.getLast? = some b)
    (h : ∀ step ∈ stepsOf path, ReachesBy next P step.1 step.2) : ReachesBy next P a b := by
  induction path generalizing a with
  | nil => simp at hhead
  | cons x path ih =>
      obtain rfl : x = a := by simpa using hhead
      cases path with
      | nil =>
          obtain rfl : x = b := by simpa using hlast
          exact .refl next P x
      | cons y path =>
          simp only [stepsOf_cons_cons, List.forall_mem_cons] at h
          exact h.1.trans (ih rfl (by simpa using hlast) h.2)

/-- **A walk can be taken without visiting a node twice.** -/
lemma exists_nodup (h : ReachesBy next P a b) :
    ∃ path, Walk next a b path ∧ path.Nodup ∧ ∀ x ∈ path.dropLast, P x := by
  obtain ⟨path, hpath, hP⟩ := h
  obtain ⟨short, hshort, hnodup, hsub⟩ := hpath.to_simple
  refine ⟨short, hshort, hnodup, fun x hx => hP x ?_⟩
  have hdrop : short.dropLast.Sublist path.dropLast := by
    simpa [List.tail_reverse] using hsub.reverse.tail.reverse
  exact hdrop.subset hx

end ReachesBy

lemma mem_dropLast_of_mem_stepsOf {step : Nat × Nat} (h : step ∈ stepsOf path) :
    step.1 ∈ path.dropLast := by
  induction path with
  | nil => simp [stepsOf] at h
  | cons a path ih =>
      cases path with
      | nil => simp at h
      | cons b path =>
          rw [stepsOf_cons_cons, List.mem_cons] at h
          rw [List.dropLast_cons_cons, List.mem_cons]
          exact h.imp (congrArg Prod.fst) ih

/-- Whether one of the paths ends at a node. -/
def PathSet.EndsAt (found : PathSet) (x : Nat) : Prop :=
  ∃ path ∈ found.paths, path.getLast? = some x

namespace Graph

variable {g : Graph} {loops : List Loop} {instructions : Array Instruction} {l : Loop} {x : Nat}

lemma mem_choices_of_mem_successors (h : b ∈ g.successors a) : b ∈ g.choices loops a :=
  List.mem_append_left _ h

lemma choices_nil (g : Graph) : g.choices [] = g.successors := by
  funext id
  simp [choices, recordedExits]

lemma Closed.mem_paths_iff (hg : g.Closed) (hentry : g.entry < g.size)
    (hloops : ∀ l ∈ loops, ∀ exit ∈ l.exit, exit < g.size) {found : PathSet}
    (h : g.paths loops .none = .ok found) :
    path ∈ found.paths ↔ g.ExitWalk loops g.entry path := by
  obtain rfl := Except.ok.inj ((hg.paths_none_eq hentry hloops).symm.trans h)
  rw [List.mem_toArray, hg.mem_depthFirst hentry hloops]

/-- **Paths end at the exits that can be reached without meeting an exit before.** -/
lemma Closed.endsAt_iff (hg : g.Closed) (hentry : g.entry < g.size)
    (hloops : ∀ l ∈ loops, ∀ exit ∈ l.exit, exit < g.size) {found : PathSet}
    (h : g.paths loops .none = .ok found) :
    found.EndsAt x ↔ g.isExit x = true ∧
      ReachesBy (g.choices loops) (fun v => g.isExit v = false) g.entry x := by
  simp only [PathSet.EndsAt, hg.mem_paths_iff hentry hloops h]
  constructor
  · rintro ⟨path, hpath, hlast⟩
    obtain ⟨exit, hexit, hisExit⟩ := hpath.ends
    obtain rfl : exit = x := Option.some.inj (hexit.symm.trans hlast)
    exact ⟨hisExit, path, walk_iff_isChain.mpr ⟨hpath.starts, hlast, hpath.linked⟩, hpath.inside⟩
  · rintro ⟨hisExit, hreach⟩
    obtain ⟨path, hpath, hnodup, hinside⟩ := hreach.exists_nodup
    obtain ⟨hhead, hlast, hchain⟩ := walk_iff_isChain.mp hpath
    exact ⟨path, ⟨hhead, hchain, hnodup, ⟨x, hlast, hisExit⟩, hinside⟩, hlast⟩

/-! ## Shortcuts -/

/-- The nodes of a loop before the first one that leads out of it. -/
def runUp (g : Graph) (l : Loop) : List Nat :=
  l.nodes.takeWhile fun id => (g.successors id).all (· ∈ l.nodes)

/-- Whether a path takes the shortcut out of a loop: it steps from the header to the way out of the loop,
where no slot leads. -/
def TakesShortcut (g : Graph) (path : List Nat) (l : Loop) : Prop :=
  ∃ exit, l.exit = some exit ∧ exit ∉ g.successors l.header ∧ (l.header, exit) ∈ stepsOf path

lemma exists_eq_takeWhile_append {successors : Nat → List Nat} {inside nodes : List Nat} {exit : Nat}
    (h : (nodes.flatMap successors).find? (fun id => id ∉ inside) = some exit) :
    ∃ u rest, nodes = nodes.takeWhile (fun id => (successors id).all (· ∈ inside)) ++ u :: rest ∧
      exit ∈ successors u ∧ exit ∉ inside := by
  induction nodes with
  | nil => simp at h
  | cons id nodes ih =>
      rw [List.flatMap_cons, List.find?_append] at h
      cases hid : (successors id).find? fun x => x ∉ inside with
      | some y =>
          rw [hid] at h
          obtain rfl : y = exit := Option.some.inj h
          have hmem := List.mem_of_find?_eq_some hid
          have hout : y ∉ inside := by simpa using List.find?_some hid
          refine ⟨id, nodes, ?_, hmem, hout⟩
          rw [List.takeWhile_cons_of_neg, List.nil_append]
          simpa using ⟨y, hmem, hout⟩
      | none =>
          rw [hid, Option.none_or] at h
          obtain ⟨u, rest, hnodes, hu⟩ := ih h
          refine ⟨u, rest, ?_, hu⟩
          rw [List.takeWhile_cons_of_pos (by simpa using hid), List.cons_append, ← hnodes]

/-- The loops of a graph as it was built are those of its branches back. -/
lemma exists_loopBack_of_mem (h : build instructions = .ok g) (hloops : g.loops = .ok loops)
    (hl : l ∈ loops) : ∃ i, l = g.loopBack i l.header ∧ l.header ≤ i ∧ g.branch? i = some l.header := by
  have hg := asBuilt_of_build h
  rw [hg.loops_eq (entry_lt_of_build h)] at hloops
  obtain rfl := Except.ok.inj hloops
  obtain ⟨i, _, hi⟩ := List.mem_flatMap.mp hl
  rw [loopsAt, hg.filter_successors] at hi
  obtain ⟨t, ht, rfl⟩ := List.mem_map.mp hi
  obtain ⟨hbranch, hle⟩ := List.mem_filter.mp ht
  exact ⟨i, rfl, of_decide_eq_true hle, Option.mem_toList.mp hbranch⟩

lemma not_isExit_of_branch? {u t : Nat} (h : build instructions = .ok g)
    (hbranch : g.branch? u = some t) : g.isExit u = false := by
  obtain ⟨i, hi, hjump⟩ := isJump_of_branch? h hbranch
  simp only [Opcode.isJump, Bool.or_eq_true, decide_eq_true_eq] at hjump
  rw [isExit, hi, Option.any_some]
  rcases hjump with hjump | hjump <;> rw [hjump] <;> decide

/-- A node that leads out of a loop has a branch: the code behind it is in the loop, unless it is the
last node, whose branch leads back. -/
lemma branch?_of_leaving {i t u exit : Nat} (h : build instructions = .ok g)
    (hback : g.branch? i = some t) (hti : t ≤ i) (hu : u ∈ List.range' t (i + 1 - t))
    (hexit : exit ∈ g.successors u) (hout : exit ∉ List.range' t (i + 1 - t)) :
    ∃ target, g.branch? u = some target := by
  rw [List.mem_range'_1] at hu hout
  by_cases hlast : u = i
  · exact ⟨t, hlast ▸ hback⟩
  · obtain ⟨node, hnode⟩ := nodes_eq_some_of_lt (lt_size_of_mem_successors hexit)
    have hi : g.instruction? u = some node.instruction := by rw [instruction?, hnode]; rfl
    have hne : exit ≠ u + 1 := by omega
    rw [successors_of_build h hi] at hexit
    refine ⟨exit, ?_⟩
    split_ifs at hexit <;> simp_all

/-- **A shortcut stands for a walk through the body of its loop** that meets no exit but in the
run-up. -/
lemma reachesBy_exit (h : build instructions = .ok g) (hloops : g.loops = .ok loops) (hl : l ∈ loops)
    {exit : Nat} (hexit : l.exit = some exit) :
    ReachesBy g.successors (fun v => g.isExit v = true → v ∈ g.runUp l) l.header exit := by
  obtain ⟨i, hback, hti, hbranch⟩ := exists_loopBack_of_mem h hloops hl
  have hnodes : l.nodes = List.range' l.header (i + 1 - l.header) := by rw [hback]; rfl
  have hwayOut : g.wayOut? l.nodes = some exit := by rw [← hexit, hback]; rfl
  rw [wayOut?_eq_find?] at hwayOut
  obtain ⟨u, rest, hsplit, hleave, hout⟩ := exists_eq_takeWhile_append hwayOut
  change l.nodes = g.runUp l ++ u :: rest at hsplit
  have hbody := (asBuilt_of_build h).chain?_eq hti (lt_size_of_branch? hbranch)
  rw [← hnodes, hsplit, List.append_cons] at hbody
  have hwalk : Walk g.successors l.header u (g.runUp l ++ [u]) := by
    refine walk_iff_isChain.mpr ⟨?_, by simp, ?_⟩
    · have hhead := head?_of_chainWithin hbody
      rwa [List.head?_append_of_ne_nil _ (by simp)] at hhead
    · exact (isChain_of_chainWithin hbody).left_of_append.imp fun a b => following?_mem_successors
  refine ⟨_, hwalk.snoc hleave, fun v hv hisExit => ?_⟩
  rw [List.dropLast_concat] at hv
  rcases List.mem_append.mp hv with hv | hv
  · exact hv
  · -- the node that leads out of the loop has a branch, so it is no exit
    obtain rfl : v = u := by simpa using hv
    rw [hnodes] at hout hsplit
    obtain ⟨target, htarget⟩ := branch?_of_leaving h hbranch hti (by simp [hsplit]) hleave hout
    simp [not_isExit_of_branch? h htarget] at hisExit

lemma exists_loop_of_mem_choices (h : b ∈ g.choices loops a) (hslot : b ∉ g.successors a) :
    ∃ l ∈ loops, l.header = a ∧ l.exit = some b := by
  have hnew := (List.mem_append.mp h).resolve_left hslot
  rw [List.mem_eraseDups, List.mem_filter, mem_recordedExits] at hnew
  exact hnew.1

/-- **The walk behind a path** meets no exit before its end but in the run-ups of the loops out of which
the path takes the shortcut. -/
lemma ExitWalk.reachesBy (hpath : g.ExitWalk loops g.entry path) (h : build instructions = .ok g)
    (hloops : g.loops = .ok loops) (hlast : path.getLast? = some x) :
    ReachesBy g.successors
      (fun v => g.isExit v = true → ∃ l ∈ loops, g.TakesShortcut path l ∧ v ∈ g.runUp l)
      g.entry x := by
  refine .of_steps hpath.starts hlast fun step hstep => ?_
  have hopen := hpath.inside _ (mem_dropLast_of_mem_stepsOf hstep)
  have hchoice := (isChain_iff_stepsOf path).mp hpath.linked step hstep
  by_cases hslot : step.2 ∈ g.successors step.1
  · exact .edge (by simp [hopen]) hslot
  · obtain ⟨l, hl, hheader, hexit⟩ := exists_loop_of_mem_choices hchoice hslot
    have htaken : g.TakesShortcut path l := ⟨step.2, hexit, hheader ▸ hslot, hheader ▸ hstep⟩
    rw [← hheader]
    refine (reachesBy_exit h hloops hl hexit).mono (fun _ _ hy => hy) fun v hv hisExit => ?_
    exact ⟨l, hl, htaken, hv hisExit⟩

/-- **Where paths with shortcuts end.**  Without shortcuts, paths of the graph of an image end at the
exits that a walk reaches without meeting an exit before.  With shortcuts they end there too, and at no
exit but those that a walk reaches on which any exit before the end lies in the run-up of a loop out of
which the path takes the shortcut.  So if there is no exit in such a run-up, paths with shortcuts end
where paths without them do. -/
theorem shortcuts_end_where_walks_lead (image : Image) (g : Graph) (h : ofImage image = .ok g) :
    ∃ loops short plain, g.loops = .ok loops ∧ g.paths loops .none = .ok short ∧
      g.paths [] .none = .ok plain ∧
      (∀ x, plain.EndsAt x ↔ g.isExit x = true ∧
        ReachesBy g.successors (fun v => g.isExit v = false) g.entry x) ∧
      (∀ x, plain.EndsAt x → short.EndsAt x) ∧
      (∀ path ∈ short.paths, ∃ x, path.getLast? = some x ∧ g.isExit x = true ∧
        ReachesBy g.successors
          (fun v => g.isExit v = true → ∃ l ∈ loops, g.TakesShortcut path l ∧ v ∈ g.runUp l)
          g.entry x) ∧
      ((∀ path ∈ short.paths, ∀ l ∈ loops, g.TakesShortcut path l →
          ∀ v ∈ g.runUp l, g.isExit v = false) →
        ∀ x, short.EndsAt x ↔ plain.EndsAt x) := by
  obtain ⟨instructions, hbuild⟩ := exists_build_of_ofImage h
  have hg := closed_of_build hbuild
  have hentry := entry_lt_of_build hbuild
  obtain ⟨loops, hloops, hrange⟩ := hg.loops_in_range hentry
  have hexits := fun l hl => (hrange l hl).2
  obtain ⟨short, hshort⟩ := hg.paths_eq_ok hentry hexits .none
  obtain ⟨plain, hplain⟩ : ∃ plain, g.paths [] .none = .ok plain :=
    hg.paths_eq_ok hentry (by simp) .none
  have hends := fun x => hg.endsAt_iff (x := x) hentry (by simp) hplain
  rw [choices_nil] at hends
  have hadds : ∀ x, plain.EndsAt x → short.EndsAt x := by
    intro x hx
    obtain ⟨hisExit, hreach⟩ := (hends x).mp hx
    refine (hg.endsAt_iff hentry hexits hshort).mpr ⟨hisExit, ?_⟩
    exact hreach.mono (fun _ _ => mem_choices_of_mem_successors) fun _ hv => hv
  have hwalks : ∀ path ∈ short.paths, ∃ x, path.getLast? = some x ∧ g.isExit x = true ∧
      ReachesBy g.successors
        (fun v => g.isExit v = true → ∃ l ∈ loops, g.TakesShortcut path l ∧ v ∈ g.runUp l)
        g.entry x := by
    intro path hpath
    have hwalk := (hg.mem_paths_iff hentry hexits hshort).mp hpath
    obtain ⟨x, hlast, hisExit⟩ := hwalk.ends
    exact ⟨x, hlast, hisExit, hwalk.reachesBy hbuild hloops hlast⟩
  refine ⟨loops, short, plain, hloops, hshort, hplain, hends, hadds, hwalks,
    fun hclear x => ⟨?_, hadds x⟩⟩
  rintro ⟨path, hpath, hlast⟩
  obtain ⟨exit, hexit, hisExit, hreach⟩ := hwalks path hpath
  obtain rfl : exit = x := Option.some.inj (hexit.symm.trans hlast)
  refine (hends exit).mpr ⟨hisExit, hreach.mono (fun _ _ hy => hy) fun v hv => ?_⟩
  by_contra hmet
  obtain ⟨l, hl, htaken, hmem⟩ := hv (by simpa using hmet)
  exact hmet (hclear path hpath l hl htaken v hmem)

/-- There is no exit in the run-up of the loop, so its shortcut is a second way to the same exit. -/
theorem shortcuts_of_leavingLoop :
    ofImage leavingLoop = .ok leavingLoopGraph ∧
      ∃ loops short plain, leavingLoopGraph.loops = .ok loops ∧
        leavingLoopGraph.paths loops .none = .ok short ∧
        leavingLoopGraph.paths [] .none = .ok plain ∧
        short.paths = #[[0, 1, 2, 3], [0, 3]] ∧ plain.paths = #[[0, 1, 2, 3]] ∧
        ∀ x, short.EndsAt x ↔ plain.EndsAt x := by
  have htwo : leavingLoopGraph.paths [⟨0, some 3, [0, 1, 2], [], []⟩] .none
      = .ok ⟨#[[0, 1, 2, 3], [0, 3]], false⟩ := by cbv
  have hone : leavingLoopGraph.paths [] .none = .ok ⟨#[[0, 1, 2, 3]], false⟩ := by cbv
  obtain ⟨loops, short, plain, hloops, hshort, hplain, _, _, _, hsame⟩ :=
    shortcuts_end_where_walks_lead leavingLoop _ ofImage_leavingLoop
  obtain rfl := Except.ok.inj (hloops.symm.trans loops_leavingLoopGraph)
  obtain rfl := Except.ok.inj (hshort.symm.trans htwo)
  obtain rfl := Except.ok.inj (hplain.symm.trans hone)
  refine ⟨ofImage_leavingLoop, _, _, _, hloops, hshort, hplain, rfl, rfl, hsame ?_⟩
  intro path _ l hl _
  obtain rfl := List.mem_singleton.mp hl
  decide

/-- A loop with an exit in its run-up, and an exit behind it. -/
def hiddenExit : Image := #[0x5b, 0xf3, 0x60, 0x00, 0x56, 0xfd]

/-- The graph of the loop. -/
def hiddenExitGraph : Graph where
  nodes := #[
    ⟨⟨0, .jumpdest, []⟩, some 1, none, none⟩,
    ⟨⟨1, .ret, []⟩, some 2, none, none⟩,
    ⟨⟨2, ⟨0x60⟩, [0x00]⟩, some 3, none, none⟩,
    ⟨⟨4, .jump, []⟩, some 4, some 0, none⟩,
    ⟨⟨5, .revert, []⟩, none, none, none⟩]

/-- **A shortcut leads past an exit.**  Every walk to the exit behind the loop meets the one inside, but a
path ends there that takes the shortcut. -/
theorem shortcut_past_hidden_exit :
    ∃ g loops short plain, ofImage hiddenExit = .ok g ∧ g.loops = .ok loops ∧
      g.paths loops .none = .ok short ∧ g.paths [] .none = .ok plain ∧
      short.EndsAt 4 ∧ ¬plain.EndsAt 4 ∧
      ¬ReachesBy g.successors (fun v => g.isExit v = false) g.entry 4 := by
  have himage : ofImage hiddenExit = .ok hiddenExitGraph := by cbv
  have hback : hiddenExitGraph.loopBack 3 0 = ⟨0, some 4, [0, 1, 2, 3], [0], []⟩ := by
    rw [loopBack, loopOf, wayOut?_eq_find?]
    cbv
  have hloops : hiddenExitGraph.loops = .ok [⟨0, some 4, [0, 1, 2, 3], [0], []⟩] := by
    obtain ⟨_, hbuild⟩ := exists_build_of_ofImage himage
    rw [(asBuilt_of_build hbuild).loops_eq (by decide), ← hback]
    rfl
  have hshort : hiddenExitGraph.paths [⟨0, some 4, [0, 1, 2, 3], [0], []⟩] .none
      = .ok ⟨#[[0, 1], [0, 4]], false⟩ := by cbv
  have hplain : hiddenExitGraph.paths [] .none = .ok ⟨#[[0, 1]], false⟩ := by cbv
  have hnot : ¬PathSet.EndsAt ⟨#[[0, 1]], false⟩ 4 := by
    rintro ⟨path, hpath, hlast⟩
    obtain rfl : path = [0, 1] := by simpa using hpath
    simp at hlast
  refine ⟨_, _, _, _, himage, hloops, hshort, hplain, ⟨[0, 4], by simp, rfl⟩, hnot, fun hreach => ?_⟩
  have hclosed : hiddenExitGraph.Closed := by decide
  refine hnot ((hclosed.endsAt_iff (by decide) (by simp) hplain).mpr ⟨by decide, ?_⟩)
  rwa [choices_nil]

end Graph

end BytecodeFlow
