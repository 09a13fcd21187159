import Mathlib
import BytecodeFlow.Proofs.Dominance
import BytecodeFlow.Proofs.LoopCycles

/-!
# No loop whose body follows the code is missed

A back edge of a graph is one whose target dominates its source.  If the code leads from the target to
the source, the edge closes a loop; this file shows that the search reports it, once for every slot, and
that it also reports every cycle of the code itself.

**The stack is a walk.**  From its root to the present node, each node on the stack is a successor of
the one below it (`Scan.Linked`).  In the first search the root is the entry, so a dominator of the
present node is on the stack, and a slot that leads to it closes a loop (`Scan.Linked.active_of_dominates`).
The later searches do not come to nodes that the entry reaches.

**The order of leaving.**  A node is left when all of its slots have been tried.  Each then leads to
a node that has been left before, or has been met while its target was active (`Scan.InOrder`).  Of the
nodes of a cycle one is left first, and the slot by which the cycle goes on from it must be of the second
kind (`Scan.InOrder.exists_met`).
-/

namespace BytecodeFlow

open Relation

/-! ## Ways through the code -/

namespace Graph

variable {g : Graph} {n header tail s u : Nat} {body cycle : List Nat}

lemma Closed.chain?_of_chainWithin (hg : g.Closed) (hheader : header < g.size)
    (h : g.chainWithin n header tail = some body) : g.chain? header tail = some body := by
  rw [← hg.chainWithin_eq_chain? hheader (le_max_right n g.size) tail]
  exact chainWithin_mono h (le_max_left n g.size)

/-- **A way through the code is found where there is one.** -/
lemma Closed.isSome_chain? (hg : g.Closed) (hs : s < g.size)
    (h : ReflTransGen (fun a b => g.following? a = some b) s u) : (g.chain? s u).isSome := by
  obtain ⟨n, body, hbody⟩ : ∃ n body, g.chainWithin n s u = some body := by
    induction h using ReflTransGen.head_induction_on with
    | refl => exact ⟨1, [u], by simp [chainWithin]⟩
    | @head a b hnext _ ih =>
        by_cases ha : a = u
        · exact ⟨1, [u], by simp [chainWithin, ha]⟩
        · have hb : b < g.size := hg.lt_of_mem_successors (following?_mem_successors hnext)
          obtain ⟨n, rest, hrest⟩ := ih hb
          exact ⟨n + 1, a :: rest, chainWithin_eq_some_iff.mpr
            (Or.inr ⟨ha, b, rest, hnext, hrest, rfl⟩)⟩
  rw [hg.chain?_of_chainWithin hs hbody]
  rfl

/-- Nodes that follow each other in the code, without repetition, are the way from the first to the
last of them. -/
lemma chainWithin_of_isChain (hchain : (header :: body).IsChain fun a b => g.following? a = some b)
    (hnodup : (header :: body).Nodup) (hlast : (header :: body).getLast? = some tail) :
    g.chainWithin (body.length + 1) header tail = some (header :: body) := by
  induction body generalizing header with
  | nil =>
      obtain rfl : header = tail := by simpa using hlast
      simp [chainWithin]
  | cons next rest ih =>
      obtain ⟨hnext, hchain⟩ := List.isChain_cons_cons.mp hchain
      obtain ⟨hheader, hnodup⟩ := List.nodup_cons.mp hnodup
      rw [List.getLast?_cons_cons] at hlast
      have hne : header ≠ tail := by
        rintro rfl
        exact hheader (List.mem_of_getLast? hlast)
      rw [List.length_cons, chainWithin_eq_some_iff]
      exact Or.inr ⟨hne, next, next :: rest, hnext, ih hchain hnodup hlast, rfl⟩

/-- **A cycle of the code**: different nodes each of which is followed by the next one, and the last by
the first. -/
structure CodeCycle (g : Graph) (cycle : List Nat) : Prop where
  nonempty : cycle ≠ []
  nodup : cycle.Nodup
  follows : ∀ k x : Nat, cycle[k]? = some x → g.following? x = cycle[(k + 1) % cycle.length]?

namespace CodeCycle

lemma rotate (h : g.CodeCycle cycle) (n : Nat) : g.CodeCycle (cycle.rotate n) where
  nonempty := by simpa using h.nonempty
  nodup := by simpa using h.nodup
  follows := by
    intro k x hx
    obtain ⟨hk, -⟩ := List.getElem?_eq_some_iff.mp hx
    rw [List.length_rotate] at hk
    have hpos : 0 < cycle.length := List.length_pos_iff.mpr h.nonempty
    rw [List.getElem?_rotate hk] at hx
    rw [List.length_rotate, List.getElem?_rotate (Nat.mod_lt _ hpos), h.follows _ x hx]
    congr 1
    simp only [Nat.mod_add_mod]
    congr 1
    omega

lemma isChain (h : g.CodeCycle cycle) : cycle.IsChain fun a b => g.following? a = some b := by
  rw [List.isChain_iff_getElem]
  intro k hk
  rw [h.follows k _ (List.getElem?_eq_getElem (by omega)), Nat.mod_eq_of_lt hk,
    List.getElem?_eq_getElem hk]

lemma exists_follows (h : g.CodeCycle cycle) {x : Nat} (hx : x ∈ cycle) :
    ∃ y ∈ cycle, g.following? x = some y := by
  obtain ⟨k, hk⟩ := List.getElem?_of_mem hx
  have hlt := Nat.mod_lt (k + 1) (List.length_pos_iff.mpr h.nonempty)
  refine ⟨cycle[(k + 1) % cycle.length], List.getElem_mem hlt, ?_⟩
  rw [h.follows k x hk, List.getElem?_eq_getElem hlt]

lemma lt_size (h : g.CodeCycle cycle) {x : Nat} (hx : x ∈ cycle) : x < g.size := by
  obtain ⟨y, _, hy⟩ := h.exists_follows hx
  exact lt_size_of_mem_successors (following?_mem_successors hy)

/-- **A cycle can be turned** until a given one of its nodes stands last; it is then the way through the
code to this node from the one that follows it. -/
lemma exists_chain (h : g.CodeCycle cycle) (hg : g.Closed) (hu : u ∈ cycle) :
    ∃ s body, s ∈ cycle ∧ g.following? u = some s ∧ g.chain? s u = some body ∧ body ~r cycle := by
  obtain ⟨k, hk⟩ := List.getElem?_of_mem hu
  have hlt := (List.getElem?_eq_some_iff.mp hk).1
  have hturned := h.rotate (k + 1)
  obtain ⟨s, rest, heq⟩ := List.exists_cons_of_ne_nil hturned.nonempty
  have hlen : rest.length + 1 = cycle.length := by
    simpa using (congrArg List.length heq).symm
  have hfirst : cycle[(k + 1) % cycle.length]? = some s := by
    have := List.getElem?_rotate (n := k + 1) (m := 0) (l := cycle) (by omega)
    rw [heq] at this
    simpa using this.symm
  have hlast : (s :: rest).getLast? = some u := by
    rw [← heq, List.getLast?_eq_getElem?, List.length_rotate, List.getElem?_rotate (by omega), ← hk]
    congr 1
    rw [show cycle.length - 1 + (k + 1) = k + cycle.length by omega, Nat.add_mod_right,
      Nat.mod_eq_of_lt hlt]
  have hchain := chainWithin_of_isChain (heq ▸ hturned.isChain) (heq ▸ hturned.nodup) hlast
  have hs : s ∈ cycle := List.mem_of_getElem? hfirst
  refine ⟨s, s :: rest, hs, (h.follows k u hk).trans hfirst,
    hg.chain?_of_chainWithin (h.lt_size hs) hchain, heq ▸ List.IsRotated.symm ⟨k + 1, rfl⟩⟩

end CodeCycle

end Graph

namespace Scan

variable {g : Graph} {scan scan' : Scan} {frames frames' : List Frame} {s u : Nat}

/-! ## The stack is a walk -/

lemma walk_of_isChain {top root : Nat} {nodes : List Nat}
    (hchain : (top :: nodes).IsChain fun b a => b ∈ g.successors a)
    (hroot : (top :: nodes).getLast? = some root) :
    Walk g.successors root top (top :: nodes).reverse := by
  induction nodes generalizing top with
  | nil =>
      obtain rfl : top = root := by simpa using hroot
      exact .single top
  | cons below nodes ih =>
      obtain ⟨hedge, hchain⟩ := List.isChain_cons_cons.mp hchain
      rw [List.getLast?_cons_cons] at hroot
      rw [List.reverse_cons]
      exact (ih hchain hroot).snoc hedge

/-- **The stack leads along edges from its root**, which is the entry, or else everything that the
entry reaches has been left. -/
structure Linked (g : Graph) (scan : Scan) (nodes : List Nat) : Prop where
  chain : nodes.IsChain fun b a => b ∈ g.successors a
  bottom : ∀ root ∈ nodes.getLast?, root = g.entry ∨
    ∀ id, Reaches g.successors g.entry id → scan.visits[id]? = some .done

namespace Linked

lemma root {root : Nat} (hg : g.Closed) (hstack : Stacked g scan [])
    (hroot : scan.visits[root]? = some .fresh)
    (hentry : root = g.entry ∨ scan.visits[g.entry]? ≠ some .fresh) :
    Linked g (scan.enter root) [root] := by
  refine ⟨.singleton _, ?_⟩
  rintro _ ⟨⟩
  refine hentry.imp_right fun hvisited id hid => (Extends.enter (g := g) hroot).done id ?_
  have hlt : g.entry < g.size :=
    Nat.zero_lt_of_lt (hstack.covers.size_eq ▸ (Array.getElem?_eq_some_iff.mp hroot).1)
  exact hstack.covers.done_of_reaches hg (hstack.covers.done_of_visited hlt hvisited) hid

lemma step (h : Linked g scan (frames.map Frame.node)) (hstack : Stacked g scan frames)
    (hstep : Step g scan frames scan' frames') : Linked g scan' (frames'.map Frame.node) := by
  have hdone := (hstep.extends hstack).done
  have hbottom : ∀ root ∈ (frames.map Frame.node).getLast?, root = g.entry ∨
      ∀ id, Reaches g.successors g.entry id → scan'.visits[id]? = some .done :=
    fun root hroot => (h.bottom root hroot).imp_right fun hall id hid => hdone id (hall id hid)
  cases hstep with
  | @leave node rest =>
      refine ⟨h.chain.tail, fun root hroot => hbottom root ?_⟩
      rw [Option.mem_def] at hroot ⊢
      rw [List.map_cons, List.getLast?_cons, hroot, Option.getD_some]
  | @enter node id left rest hid =>
      have hmem := hstack.covers.left_sub _ List.mem_cons_self id List.mem_cons_self
      exact ⟨List.isChain_cons_cons.mpr ⟨hmem, h.chain⟩, hbottom⟩
  | close => exact ⟨h.chain, hbottom⟩
  | pass => exact ⟨h.chain, hbottom⟩

/-- **A dominator of the present node is on the stack.** -/
lemma active_of_dominates {left : List Nat} {rest : List Frame}
    (h : Linked g scan ((⟨u, left⟩ :: rest : List Frame).map Frame.node))
    (hstack : Stacked g scan (⟨u, left⟩ :: rest)) (hdom : Dominates g.successors g.entry s u) :
    scan.visits[s]? = some .active := by
  obtain ⟨root, hroot⟩ : ∃ root, (u :: rest.map Frame.node).getLast? = some root :=
    ⟨_, List.getLast?_eq_some_getLast (List.cons_ne_nil _ _)⟩
  rcases h.bottom root hroot with rfl | hall
  · have hmem := hdom.passed _ (walk_of_isChain h.chain hroot)
    rw [List.mem_reverse] at hmem
    obtain ⟨frame, hframe, rfl⟩ := List.mem_map.mp (show s ∈ (⟨u, left⟩ :: rest).map Frame.node from hmem)
    exact hstack.active frame hframe
  · have hactive := hstack.active _ List.mem_cons_self
    simp [hall u hdom.reached] at hactive

end Linked

/-- **Every slot that leads to a dominator closes a loop** if the code leads back from there. -/
lemma kept_natural (hg : g.Closed) (hdom : Dominates g.successors g.entry s u)
    (hchain : (g.chain? s u).isSome) :
    Kept g fun scan frames => Linked g scan (frames.map Frame.node) ∧
      scan.tally u s + untried g scan frames u s = (g.successors u).count s where
  start := ⟨⟨.nil, by simp⟩, account_start g u s⟩
  root := by
    intro scan root hstack hroot hentry h
    exact ⟨.root hg hstack hroot hentry, (account_enter hroot u s).trans h.2⟩
  step := by
    intro scan scan' frames frames' hstack hstep ⟨hlinked, haccount⟩
    refine ⟨hlinked.step hstack hstep, ?_⟩
    rcases hstep.account hstack u s with heq | ⟨⟨left, rest, rfl, hlost⟩, _⟩
    · exact heq.trans haccount
    · exact absurd ⟨hlinked.active_of_dominates hstack hdom, hchain⟩ hlost

/-! ## The order of leaving -/

/-- Whether the loop that an edge from `u` to `s` closes, if any, has been found. -/
def Met (g : Graph) (scan : Scan) (u s : Nat) : Prop :=
  ∀ body, g.chain? s u = some body → g.loopOf s body ∈ scan.loops.toList

/-- **The order in which nodes have been left**, the last one first: an edge leads to a node that was
left before, or has been met. -/
def InOrder (g : Graph) (scan : Scan) : List Nat → Prop
  | [] => True
  | u :: before => (∀ s ∈ g.successors u, Met g scan u s ∨ s ∈ before) ∧ InOrder g scan before

/-- What has become of the slots of the nodes on the stack: a slot is still to be tried, has been met,
or leads to a node that is left when this one is. -/
def Settled (g : Graph) (scan : Scan) : (left : List Nat) → List Frame → Prop
  | _, [] => True
  | left, frame :: below =>
    (∀ s ∈ g.successors frame.node, s ∈ frame.left ∨ Met g scan frame.node s ∨ s ∈ left) ∧
      Settled g scan (frame.node :: left) below

/-- The nodes that have been left, in order, and what has become of the slots. -/
structure LeftIn (g : Graph) (scan : Scan) (frames : List Frame) (left : List Nat) : Prop where
  mem_iff : ∀ id : Nat, scan.visits[id]? = some .done ↔ id ∈ left
  settled : Settled g scan left frames
  inOrder : InOrder g scan left

lemma Met.mono (hext : Extends g scan scan') (h : Met g scan u s) : Met g scan' u s := by
  intro body hbody
  obtain ⟨new, hnew, _⟩ := hext.loops
  rw [hnew]
  exact List.mem_append_left _ (h body hbody)

lemma met_close (scan : Scan) (header tail : Nat) : Met g (scan.close g header tail) tail header := by
  intro body hbody
  simp [Scan.close, hbody]

lemma InOrder.mono (hext : Extends g scan scan') {left : List Nat} (h : InOrder g scan left) :
    InOrder g scan' left := by
  induction left with
  | nil => trivial
  | cons u before ih => exact ⟨fun s hs => (h.1 s hs).imp_left (·.mono hext), ih h.2⟩

lemma Settled.mono (hext : Extends g scan scan') {left left' : List Nat} (hsub : left ⊆ left')
    (h : Settled g scan left frames) : Settled g scan' left' frames := by
  induction frames generalizing left left' with
  | nil => trivial
  | cons frame below ih =>
      refine ⟨fun s hs => ?_, ih (List.cons_subset_cons _ hsub) h.2⟩
      exact (h.1 s hs).imp_right (Or.imp (·.mono hext) fun hmem => hsub hmem)

/-- The first slot of the present node need not be tried any more once it has been met or leads to a node
that is left before this one. -/
lemma Settled.drop (hext : Extends g scan scan') {left left' slots : List Nat} {node id : Nat}
    {below : List Frame} (hsub : left ⊆ left') (hid : Met g scan' node id ∨ id ∈ left')
    (h : Settled g scan left (⟨node, id :: slots⟩ :: below)) :
    Settled g scan' left' (⟨node, slots⟩ :: below) := by
  refine ⟨fun s hs => ?_, h.2.mono hext (List.cons_subset_cons _ hsub)⟩
  rcases h.1 s hs with hslot | hmet | hleft
  · rcases List.mem_cons.mp hslot with rfl | hslot
    · exact Or.inr hid
    · exact Or.inl hslot
  · exact Or.inr (Or.inl (hmet.mono hext))
  · exact Or.inr (Or.inr (hsub hleft))

lemma done_enter_iff {id i : Nat} (hid : scan.visits[id]? = some .fresh) :
    (scan.enter id).visits[i]? = some .done ↔ scan.visits[i]? = some .done := by
  rw [getElem?_visits_enter _ _ _ (Array.getElem?_eq_some_iff.mp hid).1]
  split_ifs with heq
  · simp [heq, hid]
  · rfl

/-- Of the nodes of a set that every node has an edge into, one is left first, and its edges into the
set have been met. -/
lemma InOrder.exists_met {left : List Nat} (h : InOrder g scan left) {cycle : List Nat}
    (hleft : ∃ u ∈ cycle, u ∈ left) :
    ∃ u ∈ cycle, ∀ s ∈ g.successors u, s ∈ cycle → Met g scan u s := by
  induction left with
  | nil => simp at hleft
  | cons u before ih =>
      by_cases hbefore : ∃ w ∈ cycle, w ∈ before
      · exact ih h.2 hbefore
      · obtain ⟨w, hw, hmem⟩ := hleft
        obtain rfl : w = u := by
          rcases List.mem_cons.mp hmem with heq | hmem
          · exact heq
          · exact absurd ⟨w, hw, hmem⟩ hbefore
        refine ⟨w, hw, fun s hs hcycle => (h.1 s hs).resolve_right fun hmem => ?_⟩
        exact hbefore ⟨s, hcycle, hmem⟩

/-- **Nodes are left in order.** -/
lemma kept_leftIn (g : Graph) : Kept g fun scan frames => ∃ left, LeftIn g scan frames left where
  start := by
    refine ⟨[], fun id => ?_, trivial, trivial⟩
    simp [start, Array.getElem?_replicate]
  root := by
    rintro scan root - hroot - ⟨left, h⟩
    exact ⟨left, fun id => (done_enter_iff hroot).trans (h.mem_iff id),
      ⟨fun s hs => Or.inl hs, trivial⟩, h.inOrder.mono (.enter hroot)⟩
  step := by
    rintro scan scan' frames frames' hstack hstep ⟨left, hmem, hsettled, horder⟩
    have hext := hstep.extends hstack
    cases hstep with
    | @leave node rest =>
        have hlt : node < scan.visits.size :=
          hstack.covers.size_eq ▸ hstack.covers.node_lt _ List.mem_cons_self
        refine ⟨node :: left, fun id => ?_, hsettled.2.mono hext (List.Subset.refl _), ?_,
          horder.mono hext⟩
        · rw [getElem?_visits_leave _ _ _ hlt, List.mem_cons, ← hmem]
          split_ifs with heq <;> simp [heq]
        · intro s hs
          rcases hsettled.1 s hs with hnil | hmet | hleft
          · simp at hnil
          · exact Or.inl (hmet.mono hext)
          · exact Or.inr hleft
    | @enter node id slots rest hid =>
        refine ⟨left, fun i => (done_enter_iff hid).trans (hmem i), ⟨fun s hs => Or.inl hs, ?_⟩,
          horder.mono hext⟩
        -- the node that is entered will have been left before the one below it
        exact hsettled.drop hext (List.subset_cons_self _ _) (Or.inr List.mem_cons_self)
    | @close node id slots rest hid =>
        refine ⟨left, fun i => by rw [visits_close]; exact hmem i, ?_, horder.mono hext⟩
        exact hsettled.drop hext (List.Subset.refl _) (Or.inl (met_close scan id node))
    | @pass node id slots rest hid =>
        refine ⟨left, hmem, ?_, horder⟩
        exact hsettled.drop hext (List.Subset.refl _) (Or.inr ((hmem id).mp hid))

end Scan

/-! ## The loops of a graph -/

namespace Graph

/-- **No loop whose body follows the code is missed.**  If a node dominates another one and the code
leads on from it to that one, every slot that leads back is reported as a loop, and once.  And for every
cycle of the code, reachable or not, a loop with its nodes is reported. -/
theorem natural_loops_found (g : Graph) (hg : g.Closed) :
    ∃ loops, g.loops = .ok loops ∧
      (∀ u s, s ∈ g.successors u → Dominates g.successors g.entry s u →
        ReflTransGen (fun a b => g.following? a = some b) s u →
        loops.countP (·.closedBy u s) = (g.slotsTo u s).length) ∧
      ∀ cycle, g.CodeCycle cycle → ∃ l ∈ loops, l.nodes ~r cycle := by
  obtain ⟨last, hloops, ⟨left, hleft⟩, hdone⟩ := (Scan.kept_leftIn g).loops hg
  refine ⟨_, hloops, fun u s hback hdom hway => ?_, fun cycle hcycle => ?_⟩
  · have hs : s < g.size := hg.lt_of_mem_successors hback
    obtain ⟨last', hloops', ⟨_, haccount⟩, hdone'⟩ :=
      (Scan.kept_natural hg hdom (hg.isSome_chain? hs hway)).loops hg
    rw [hloops] at hloops'
    have hu := hdone' u (lt_size_of_mem_successors hback)
    rw [length_slotsTo, ← haccount, Except.ok.inj hloops']
    simp [Scan.tally, Scan.untried, hu]
  · obtain ⟨first, hfirst⟩ := List.exists_mem_of_ne_nil _ hcycle.nonempty
    have hmem := (hleft.mem_iff first).mp (hdone first (hcycle.lt_size hfirst))
    obtain ⟨u, hu, hmet⟩ := hleft.inOrder.exists_met ⟨first, hfirst, hmem⟩
    obtain ⟨s, body, hs, hnext, hbody, hturned⟩ := hcycle.exists_chain hg hu
    exact ⟨_, hmet s (following?_mem_successors hnext) hs body hbody, hturned⟩

/-- A loop around a call, with two slots that lead back to its header, and two nodes behind the exit that
follow each other in the code and that nothing leads to. -/
def twisted : Graph where
  nodes := #[
    ⟨⟨0, .jumpdest, []⟩, some 1, none, none⟩,
    ⟨⟨1, .jumpdest, []⟩, some 2, none, none⟩,
    ⟨⟨2, .call, []⟩, some 3, some 1, some 1⟩,
    ⟨⟨3, .ret, []⟩, none, none, none⟩,
    ⟨⟨4, .jumpdest, []⟩, some 5, none, none⟩,
    ⟨⟨5, .jumpdest, []⟩, some 4, none, none⟩]

/-- Both slots close a loop, and the two nodes are found to be one. -/
theorem natural_loops_twisted :
    twisted.Closed ∧ Dominates twisted.successors twisted.entry 1 2 ∧ twisted.CodeCycle [5, 4] ∧
      ∃ loops, twisted.loops = .ok loops ∧ loops.countP (·.closedBy 2 1) = 2 ∧
        ∃ l ∈ loops, l.nodes ~r [5, 4] := by
  have hdom : Dominates twisted.successors twisted.entry 1 2 := by
    refine ⟨⟨[0, 1, 2], .cons (by decide) (.cons (by decide) (.single 2))⟩, fun path hpath => ?_⟩
    -- the only edge of the entry leads to the header
    cases hpath with
    | @cons _ b _ path hb hrest =>
        obtain rfl : b = 1 := List.mem_singleton.mp (show b ∈ [1] from hb)
        exact List.mem_cons_of_mem _ hrest.first_mem
  have hcycle : twisted.CodeCycle [5, 4] := by
    refine ⟨by decide, by decide, ?_⟩
    rintro (_ | _ | k) x hx <;> simp at hx <;> subst hx <;> rfl
  obtain ⟨loops, hloops, hcount, hfound⟩ := natural_loops_found twisted (by decide)
  refine ⟨by decide, hdom, hcycle, loops, hloops, ?_, hfound _ hcycle⟩
  exact hcount 2 1 (by decide) hdom (.single rfl)

end Graph

end BytecodeFlow
