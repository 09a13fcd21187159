import Mathlib
import BytecodeFlow.Graph.Dominators
import BytecodeFlow.Proofs.DominanceOrder
import BytecodeFlow.Proofs.PostOrder

/-!
# The rounds find the immediate dominators

`Links.settle` goes through the nodes in reverse post order until a round changes nothing.  What it finds are
the immediate dominators (`Dominators.compute_eq`), and the way along them passes all dominators of a node
(`Dominators.Correct.mem_chain_iff`).

**Never too low.**  What dominates a node, itself apart, dominates all of its predecessors, and what dominates
two nodes dominates where the ways from them meet (`Links.dominates_meet`).  So a link never leads past a
dominator: `Links.Sound` holds from the beginning on.

**High enough after some rounds.**  `Links.Covers next links k id` says that the link of `id` leads to a node
on every walk to `id` that passes `k` nodes at most.  A visit gains one step (`Links.covers_visit`), since the
link leads to where the ways from all predecessors pass, and a round gains one step for all nodes
(`Links.round_eq`).  A walk without repetition passes each node once, so as many rounds as there are nodes
cover all walks (`Links.exact_of_covers`).

**The end.**  Sound links that cover all walks are one and the same map, so that a further round changes
nothing (`Links.settled`): the rounds end because they are done.  What they rely on is the order
(`ReversePostOrder`) and the table of predecessors (`mem_predecessorTable`), gathered in `FlowGraph`.
-/

namespace BytecodeFlow

/-! ## The setting -/

/-- **What the rounds rely on**: a numbering in reverse post order of the nodes that its root reaches, and
their predecessors among them. -/
structure FlowGraph (next preds : Nat → List Nat) (o : Numbering) : Prop where
  order : ReversePostOrder next o.root o.others
  ascends : (o.root :: o.others).Pairwise fun a b => o.place a < o.place b
  mem_preds : ∀ id ∈ o.others, ∀ p, p ∈ preds id ↔ p ∈ o.root :: o.others ∧ id ∈ next p

variable {next preds : Nat → List Nat} {o : Numbering} {done rest path : List Nat} {a b c id k : Nat}

namespace FlowGraph

lemma place_lt (h : FlowGraph next preds o) (hsplit : o.others = done ++ id :: rest)
    (ha : a ∈ o.root :: done) : o.place a < o.place id := by
  have hpair := h.ascends
  rw [hsplit, ← List.cons_append, List.pairwise_append] at hpair
  exact hpair.2.2 a ha id List.mem_cons_self

/-- Each place is that of one node. -/
lemma place_injective (h : FlowGraph next preds o) (ha : a ∈ o.root :: o.others) (hb : b ∈ o.root :: o.others)
    (hab : o.place a = o.place b) : a = b := by
  have hnodup : ((o.root :: o.others).map o.place).Nodup :=
    List.pairwise_map.mpr (h.ascends.imp Nat.ne_of_lt)
  exact List.inj_on_of_nodup_map hnodup ha hb hab

/-- **A dominator stands before what it dominates.** -/
lemma place_le_of_dominates (h : FlowGraph next preds o) (hdom : Dominates next o.root a b) :
    o.place a ≤ o.place b := by
  rcases List.mem_cons.mp (h.order.mem_iff.mpr hdom.reached) with rfl | hb
  · rw [hdom.eq_root]
  · obtain ⟨done, rest, hsplit⟩ := List.append_of_mem hb
    obtain ⟨init, hwalk, hinit⟩ := (hsplit ▸ h.order.led).exists_walk
    rcases List.mem_append.mp (hdom.passed _ hwalk) with ha | ha
    · exact (h.place_lt hsplit (hinit a ha)).le
    · rw [List.mem_singleton.mp ha]

end FlowGraph

namespace Links

variable {links : Links o}

/-! ## Ways along the links -/

/-- Whether the way along the links from `b` passes `a`. -/
def Above (links : Links o) (a b : Nat) : Prop :=
  Relation.ReflTransGen (fun x y => x ≠ o.root ∧ links.idom? x = some y) b a

lemma above_step (x : links.Linked) (hx : x.val ≠ o.root) : links.Above (links.step x).val x.val :=
  .single ⟨hx, (Option.some_get x.property).symm⟩

lemma place_le_of_above (h : links.Above a b) : o.place a ≤ o.place b := by
  induction h with
  | refl => exact le_rfl
  | tail _ hstep ih => exact (links.toward _ _ hstep.2 hstep.1).1.le.trans ih

/-- **What the links say is true from the beginning on**: nodes with a link are reached, and what dominates a
node dominates the node it is linked to. -/
structure Sound (next : Nat → List Nat) (links : Links o) : Prop where
  lt_size : ∀ id ∈ o.root :: o.others, id < links.idoms.size
  mem_order : ∀ id, (links.idom? id).isSome → id ∈ o.root :: o.others
  dominates : ∀ id idom, links.idom? id = some idom → ∀ a, a ≠ id → Dominates next o.root a id →
    Dominates next o.root a idom

lemma idom?_single {size : Nat} (h : o.root < size) (x : Nat) :
    (single o size h).idom? x = if x = o.root then some o.root else none := by
  rw [idom?, single, Array.getElem?_set]
  by_cases hx : o.root = x
  · simp [hx]
  · simp only [if_neg hx, if_neg (Ne.symm hx), Array.getElem?_replicate]
    split <;> rfl

lemma Sound.single {size : Nat} (hlt : ∀ id ∈ o.root :: o.others, id < size) :
    (single o size (hlt _ List.mem_cons_self)).Sound next := by
  refine ⟨?_, fun x hx => ?_, fun x y hxy a hne hdom => ?_⟩
  · simpa [Links.single] using hlt
  · rw [idom?_single] at hx
    split_ifs at hx with heq
    · simp [heq]
    · simp at hx
  · rw [idom?_single] at hxy
    split_ifs at hxy with heq
    · rw [← Option.some.inj hxy]
      exact heq ▸ hdom

/-! ### Where ways meet -/

/-- **The ways from two nodes pass where they meet.** -/
lemma meet_above (hflow : FlowGraph next preds o) (hsound : links.Sound next) (x y : links.Linked) :
    links.Above (links.meet x y).val x.val ∧ links.Above (links.meet x y).val y.val := by
  fun_induction meet links x y with
  | case1 x y hlt ih =>
      exact ⟨ih.1, (above_step y (Numbering.ne_root_of_place_lt hlt)).trans ih.2⟩
  | case2 x y _ hlt ih =>
      exact ⟨(above_step x (Numbering.ne_root_of_place_lt hlt)).trans ih.1, ih.2⟩
  | case3 x y hge hge' =>
      have hxy : x.val = y.val :=
        hflow.place_injective (hsound.mem_order _ x.property) (hsound.mem_order _ y.property) (by omega)
      exact ⟨.refl, hxy ▸ .refl⟩

/-- **What dominates two nodes dominates where their ways meet.**  It cannot be the node in the later place,
which is the one that goes on. -/
lemma dominates_meet (hflow : FlowGraph next preds o) (hsound : links.Sound next) (x y : links.Linked)
    (hx : Dominates next o.root a x.val) (hy : Dominates next o.root a y.val) :
    Dominates next o.root a (links.meet x y).val := by
  fun_induction meet links x y with
  | case1 x y hlt ih =>
      refine ih hx (hsound.dominates y.val _ (Option.some_get y.property).symm a ?_ hy)
      rintro rfl
      exact absurd (hflow.place_le_of_dominates hx) (Nat.not_le.mpr hlt)
  | case2 x y _ hlt ih =>
      refine ih (hsound.dominates x.val _ (Option.some_get x.property).symm a ?_ hx) hy
      rintro rfl
      exact absurd (hflow.place_le_of_dominates hy) (Nat.not_le.mpr hlt)
  | case3 => exact hx

lemma foldl_meet_above (hflow : FlowGraph next preds o) (hsound : links.Sound next)
    (others : List links.Linked) (first : links.Linked) :
    ∀ x ∈ first :: others, links.Above (others.foldl links.meet first).val x.val := by
  induction others generalizing first with
  | nil =>
      intro x hx
      rw [List.mem_singleton.mp hx]
      exact .refl
  | cons y others ih =>
      intro x hx
      have hmeet := meet_above hflow hsound first y
      have hrest := ih (links.meet first y)
      rcases List.mem_cons.mp hx with rfl | hx
      · exact hmeet.1.trans (hrest _ List.mem_cons_self)
      · rcases List.mem_cons.mp hx with rfl | hx
        · exact hmeet.2.trans (hrest _ List.mem_cons_self)
        · exact hrest x (List.mem_cons_of_mem _ hx)

lemma dominates_foldl_meet (hflow : FlowGraph next preds o) (hsound : links.Sound next)
    (others : List links.Linked) (first : links.Linked)
    (h : ∀ x ∈ first :: others, Dominates next o.root a x.val) :
    Dominates next o.root a (others.foldl links.meet first).val := by
  induction others generalizing first with
  | nil => exact h first List.mem_cons_self
  | cons y others ih =>
      refine ih (links.meet first y) fun x hx => ?_
      rcases List.mem_cons.mp hx with rfl | hx
      · exact dominates_meet hflow hsound first y (h _ (by simp)) (h _ (by simp))
      · exact h x (by simp [hx])

lemma mem_filterMap_linked? {nodes : List Nat} {x : links.Linked} :
    x ∈ nodes.filterMap links.linked? ↔ x.val ∈ nodes := by
  simp only [List.mem_filterMap, linked?, Option.dite_none_right_eq_some]
  constructor
  · rintro ⟨id, hid, _, hx⟩
    obtain rfl := Option.some.inj hx
    exact hid
  · exact fun hx => ⟨x.val, hx, x.property, rfl⟩

/-- **Where the ways from the predecessors meet**, if one of them has a link: all ways pass there, and it is
dominated by what dominates the node. -/
lemma meeting?_eq (hflow : FlowGraph next preds o) (hsound : links.Sound next) (hid : id ∈ o.others)
    (hb : b ∈ preds id) (hlinked : (links.idom? b).isSome) :
    ∃ idom, links.meeting? preds id = some idom ∧
      (∀ p ∈ preds id, (links.idom? p).isSome → links.Above idom.val p) ∧
      ∀ a, a ≠ id → Dominates next o.root a id → Dominates next o.root a idom.val := by
  have hmem : ∀ x, x ∈ (preds id).filterMap links.linked? ↔ x.val ∈ preds id :=
    fun x => mem_filterMap_linked?
  rw [meeting?]
  cases hlist : (preds id).filterMap links.linked? with
  | nil =>
      have := (hmem ⟨b, hlinked⟩).mpr hb
      rw [hlist] at this
      cases this
  | cons first others =>
      rw [hlist] at hmem
      refine ⟨_, rfl, fun p hp hpl => ?_, fun a hne hdom => ?_⟩
      · exact foldl_meet_above hflow hsound others first ⟨p, hpl⟩ ((hmem _).mpr hp)
      · refine dominates_foldl_meet hflow hsound others first fun x hx => ?_
        obtain ⟨horder, hstep⟩ := (hflow.mem_preds id hid x.val).mp ((hmem x).mp hx)
        exact hdom.of_step hne (hflow.order.mem_iff.mp horder) hstep

/-! ## One visit -/

lemma idom?_set (idom : links.Linked) (h : o.place idom.val < o.place id) (x : Nat) :
    (links.set id idom h).idom? x
      = if x = id ∧ id < links.idoms.size then some idom.val else links.idom? x :=
  join_setIfInBounds links.idoms id idom.val x

/-- **A visit gives a node a link**, once the nodes before it have one: the way from every predecessor with a
link passes the node that it is linked to, and no other link is changed. -/
lemma visit_eq (hflow : FlowGraph next preds o) (hsound : links.Sound next)
    (hsplit : o.others = done ++ id :: rest) (hdone : ∀ x ∈ o.root :: done, (links.idom? x).isSome) :
    ∃ idom, (visit preds links id).idom? id = some idom ∧
      (∀ x, x ≠ id → (visit preds links id).idom? x = links.idom? x) ∧
      (visit preds links id).idoms.size = links.idoms.size ∧
      (∀ p ∈ preds id, (links.idom? p).isSome → links.Above idom p) ∧
      ∀ a, a ≠ id → Dominates next o.root a id → Dominates next o.root a idom := by
  have hid : id ∈ o.others := by simp [hsplit]
  -- some predecessor stands before the node
  have hled := hflow.order.led
  rw [hsplit, LedTo.append_iff] at hled
  obtain ⟨p, hp, hstep⟩ := hled.2.1
  have hpreds : p ∈ preds id := by
    refine (hflow.mem_preds id hid p).mpr ⟨?_, hstep⟩
    rw [hsplit, ← List.cons_append]
    exact List.mem_append_left _ hp
  obtain ⟨idom, hmeeting, habove, hdom⟩ := meeting?_eq hflow hsound hid hpreds (hdone p hp)
  have hlt : o.place idom.val < o.place id :=
    (place_le_of_above (habove p hpreds (hdone p hp))).trans_lt (hflow.place_lt hsplit hp)
  have hvisit : visit preds links id = links.set id idom hlt := by
    rw [visit, hmeeting]
    exact dif_pos hlt
  rw [hvisit]
  refine ⟨idom.val, ?_, fun x hx => ?_, ?_, habove, hdom⟩
  · rw [idom?_set, if_pos ⟨rfl, hsound.lt_size id (List.mem_cons_of_mem _ hid)⟩]
  · rw [idom?_set, if_neg fun h => hx h.1]
  · exact Array.size_setIfInBounds ..

lemma Sound.visit (hflow : FlowGraph next preds o) (hsound : links.Sound next)
    (hsplit : o.others = done ++ id :: rest) (hdone : ∀ x ∈ o.root :: done, (links.idom? x).isSome) :
    (visit preds links id).Sound next := by
  obtain ⟨idom, hself, hother, hsize, _, hdom⟩ := visit_eq hflow hsound hsplit hdone
  refine ⟨hsize ▸ hsound.lt_size, fun x hx => ?_, fun x y hxy a hne hax => ?_⟩
  · by_cases hxid : x = id
    · simp [hxid, hsplit]
    · exact hsound.mem_order x (hother x hxid ▸ hx)
  · by_cases hxid : x = id
    · subst hxid
      obtain rfl := Option.some.inj (hself.symm.trans hxy)
      exact hdom a hne hax
    · exact hsound.dominates x y (hother x hxid ▸ hxy) a hne hax

/-! ## Walks of a given length -/

/-- Whether a node is linked to a node on each of the walks to it that pass `k` nodes at most. -/
def Covers (next : Nat → List Nat) (links : Links o) (k id : Nat) : Prop :=
  ∀ path, Walk next o.root id path → path.length ≤ k → ∃ idom, links.idom? id = some idom ∧ idom ∈ path

/-- The whole way along the links then lies on such a walk. -/
lemma mem_of_above (hcovers : ∀ x, links.Covers next k x) (h : links.Above a b)
    (hwalk : Walk next o.root b path) (hlen : path.length ≤ k) : a ∈ path := by
  induction h using Relation.ReflTransGen.head_induction_on generalizing path with
  | refl => exact hwalk.last_mem
  | @head x y hstep _ ih =>
      obtain ⟨idom, hidom, hmem⟩ := hcovers x path hwalk hlen
      obtain rfl := Option.some.inj (hidom.symm.trans hstep.2)
      obtain ⟨init, tail, rfl, hinit, _⟩ := hwalk.split hmem
      have hsub : List.Sublist (init ++ [idom]) (init ++ idom :: tail) :=
        (List.Sublist.refl init).append (List.singleton_sublist.mpr List.mem_cons_self)
      exact hsub.subset (ih hinit (hsub.length_le.trans hlen))

/-- **A visit gains one step**: the walks to a node are one step longer than those to its predecessors. -/
lemma covers_visit (hflow : FlowGraph next preds o) (hsound : links.Sound next)
    (hsplit : o.others = done ++ id :: rest) (hdone : ∀ x ∈ o.root :: done, (links.idom? x).isSome)
    (hcovers : ∀ x, links.Covers next k x) : (visit preds links id).Covers next (k + 1) id := by
  obtain ⟨idom, hself, _, _, habove, _⟩ := visit_eq hflow hsound hsplit hdone
  have hne : id ≠ o.root := Numbering.ne_root_of_place_lt (hflow.place_lt hsplit List.mem_cons_self)
  intro path hpath hlen
  refine ⟨idom, hself, ?_⟩
  rcases hpath.last_step with rfl | ⟨p, init, rfl, hinit, hstep⟩
  · exact absurd (by simpa using hpath.last_mem) hne
  · have hinitlen : init.length ≤ k := by simpa using hlen
    have hpreds : p ∈ preds id :=
      (hflow.mem_preds id (by simp [hsplit]) p).mpr ⟨hflow.order.mem_iff.mpr ⟨init, hinit⟩, hstep⟩
    obtain ⟨_, hp, _⟩ := hcovers p init hinit hinitlen
    exact List.mem_append_left _
      (mem_of_above hcovers (habove p hpreds (hp ▸ rfl)) hinit hinitlen)

/-! ## Rounds -/

/-- **In the middle of a round**: the nodes in `done` have been visited. -/
structure Midway (next : Nat → List Nat) (k : Nat) (done : List Nat) (links : Links o) : Prop where
  sound : links.Sound next
  covers : ∀ x, links.Covers next k x
  linked : ∀ x ∈ o.root :: done, (links.idom? x).isSome
  ahead : ∀ x ∈ done, links.Covers next (k + 1) x

lemma Midway.visit (hflow : FlowGraph next preds o) (hsplit : o.others = done ++ id :: rest)
    (h : links.Midway next k done) : (visit preds links id).Midway next k (done ++ [id]) := by
  obtain ⟨idom, hself, hother, _⟩ := visit_eq hflow h.sound hsplit h.linked
  have hgain := covers_visit hflow h.sound hsplit h.linked h.covers
  -- the other nodes have kept their links
  have hkeep : ∀ {j x}, x ≠ id → links.Covers next j x → (Links.visit preds links id).Covers next j x := by
    intro j x hx hcovers path hpath hlen
    rw [hother x hx]
    exact hcovers path hpath hlen
  refine ⟨h.sound.visit hflow hsplit h.linked, fun x => ?_, fun x hx => ?_, fun x hx => ?_⟩
  · by_cases hx : x = id
    · subst hx
      exact fun path hpath hlen => hgain path hpath (hlen.trans (Nat.le_succ k))
    · exact hkeep hx (h.covers x)
  · by_cases hxid : x = id
    · rw [hxid, hself]
      rfl
    · rw [hother x hxid]
      refine h.linked x ?_
      simpa [hxid] using hx
  · by_cases hxid : x = id
    · exact hxid ▸ hgain
    · exact hkeep hxid (h.ahead x (by simpa [hxid] using hx))

lemma Midway.foldl_visit (hflow : FlowGraph next preds o) (hsplit : o.others = done ++ rest)
    (h : links.Midway next k done) : (rest.foldl (Links.visit preds) links).Midway next k o.others := by
  induction rest generalizing done links with
  | nil =>
      rw [List.append_nil] at hsplit
      exact hsplit ▸ h
  | cons id rest ih =>
      rw [List.foldl_cons]
      refine ih ?_ (h.visit hflow hsplit)
      rw [hsplit, List.append_assoc, List.singleton_append]

/-- **A round gains one step for all nodes.** -/
lemma round_eq (hflow : FlowGraph next preds o) (hsound : links.Sound next)
    (hcovers : ∀ x, links.Covers next k x) :
    (round preds links).Sound next ∧ ∀ x, (round preds links).Covers next (k + 1) x := by
  have hroot : (links.idom? o.root).isSome := by
    rw [idom?, links.root_idom]
    rfl
  have h : links.Midway next k [] := ⟨hsound, hcovers, by simpa using hroot, by simp⟩
  have hafter : (round preds links).Midway next k o.others := h.foldl_visit hflow rfl
  refine ⟨hafter.sound, fun x path hpath hlen => ?_⟩
  rcases List.mem_cons.mp (hflow.order.mem_iff.mpr ⟨path, hpath⟩) with rfl | hx
  · exact ⟨o.root, (round preds links).root_idom, hpath.first_mem⟩
  · exact hafter.ahead x hx path hpath hlen

lemma iterate_round_eq (hflow : FlowGraph next preds o) (hsound : links.Sound next) (rounds : Nat) :
    ((round preds)^[rounds] links).Sound next ∧ ∀ x, ((round preds)^[rounds] links).Covers next rounds x := by
  induction rounds with
  | zero =>
      refine ⟨hsound, fun x path hpath hlen => ?_⟩
      exact absurd (List.length_eq_zero_iff.mp (Nat.le_zero.mp hlen)) hpath.ne_nil
  | succ rounds ih =>
      rw [Function.iterate_succ_apply']
      exact round_eq hflow ih.1 ih.2

/-- Stopping at a round that changes nothing makes no difference. -/
lemma settle_eq_iterate (preds : Nat → List Nat) (rounds : Nat) (links : Links o) :
    settle preds rounds links = (round preds)^[rounds] links := by
  induction rounds generalizing links with
  | zero => rfl
  | succ rounds ih =>
      rw [settle, Function.iterate_succ_apply]
      split_ifs with hsame
      · have hfixed : round preds links = links := Links.ext hsame
        rw [hfixed, Function.iterate_fixed hfixed]
      · exact ih _

/-! ## The immediate dominators -/

/-- **The links are the immediate dominators**, of the nodes that the root reaches. -/
structure Exact (next : Nat → List Nat) (links : Links o) : Prop where
  linked_iff : ∀ id, (links.idom? id).isSome ↔ Reaches next o.root id
  closest_iff : ∀ id c, id ≠ o.root →
    (links.idom? id = some c ↔ Closest (Dominates next o.root) c id)

/-- A walk without repetition passes no more nodes than there are.  So as many rounds as there are nodes are
enough for all walks. -/
lemma exists_idom_mem (hflow : FlowGraph next preds o)
    (hcovers : ∀ x, links.Covers next (o.root :: o.others).length x) (hpath : Walk next o.root id path) :
    ∃ idom, links.idom? id = some idom ∧ idom ∈ path := by
  obtain ⟨short, hshort, hnodup, hsub⟩ := hpath.to_simple
  have hmem : short ⊆ o.root :: o.others :=
    hshort.forall_mem (P := (· ∈ o.root :: o.others)) List.mem_cons_self hflow.order.closed
  obtain ⟨idom, hidom, hin⟩ := hcovers id short hshort (hnodup.subperm hmem).length_le
  exact ⟨idom, hidom, hsub.subset hin⟩

/-- **Links that are sound and cover all walks are the immediate dominators**: a link leads to a node on every
walk, and no dominator is between. -/
lemma exact_of_covers (hflow : FlowGraph next preds o) (hsound : links.Sound next)
    (hcovers : ∀ x, links.Covers next (o.root :: o.others).length x) : links.Exact next := by
  have hlinked : ∀ id, (links.idom? id).isSome ↔ Reaches next o.root id := by
    intro id
    constructor
    · exact fun h => hflow.order.mem_iff.mp (hsound.mem_order id h)
    · rintro ⟨path, hpath⟩
      obtain ⟨idom, hidom, _⟩ := exists_idom_mem hflow hcovers hpath
      exact hidom ▸ rfl
  have hclosest : ∀ id c, id ≠ o.root → links.idom? id = some c →
      Closest (Dominates next o.root) c id := by
    intro id c hne hidom
    have hlt := (links.toward id c hidom hne).1
    refine ⟨fun h => (h ▸ hlt).false, ⟨(hlinked id).mp (hidom ▸ rfl), fun path hpath => ?_⟩, ?_⟩
    · obtain ⟨idom, hidom', hin⟩ := exists_idom_mem hflow hcovers hpath
      exact Option.some.inj (hidom'.symm.trans hidom) ▸ hin
    · exact fun a hne ha _ => hsound.dominates id c hidom a hne ha
  refine ⟨hlinked, fun id c hne => ⟨hclosest id c hne, fun hc => ?_⟩⟩
  obtain ⟨idom, hidom⟩ := Option.isSome_iff_exists.mp ((hlinked id).mpr hc.dominates.reached)
  rw [hidom, (hclosest id idom hne hidom).unique (fun _ _ => Dominates.antisymm) hc]

/-- Two maps of immediate dominators are the same. -/
lemma Exact.unique {links' : Links o} (h : links.Exact next) (h' : links'.Exact next) (x : Nat) :
    links.idom? x = links'.idom? x := by
  by_cases hx : x = o.root
  · rw [hx, idom?, links.root_idom, idom?, links'.root_idom]
  · refine Option.ext fun c => ?_
    rw [h.closest_iff x c hx, h'.closest_iff x c hx]

/-- **After as many rounds as there are nodes, one more changes nothing**, so that the rounds end because
they are done and not because their number is used up. -/
lemma settled (hflow : FlowGraph next preds o) (hsound : links.Sound next) (x : Nat) :
    (round preds (settle preds (o.root :: o.others).length links)).idom? x
      = (settle preds (o.root :: o.others).length links).idom? x := by
  rw [settle_eq_iterate]
  obtain ⟨hafter, hcovers⟩ := iterate_round_eq hflow hsound (o.root :: o.others).length
  obtain ⟨honce, hmore⟩ := round_eq hflow hafter hcovers
  refine (exact_of_covers hflow honce fun x path hpath hlen => ?_).unique
    (exact_of_covers hflow hafter hcovers) x
  exact hmore x path hpath (hlen.trans (Nat.le_succ _))

end Links

/-! ## The map -/

/-- Adding a node to the entries of its successors. -/
lemma mem_foldl_insert {targets : List Nat} {table : Array (List Nat)} {node p : Nat}
    (hid : id < table.size) :
    p ∈ (targets.foldl (fun table id => table.modify id (List.insert node)) table)[id]?.getD [] ↔
      p ∈ table[id]?.getD [] ∨ p = node ∧ id ∈ targets := by
  induction targets generalizing table with
  | nil => simp
  | cons target targets ih =>
      rw [List.foldl_cons, ih (by simpa using hid), Array.getElem?_modify, List.mem_cons]
      by_cases htarget : target = id
      · subst htarget
        simp only [if_true, Array.getElem?_eq_getElem hid, Option.map_some, Option.getD_some,
          List.mem_insert_iff]
        tauto
      · rw [if_neg htarget]
        have : id ≠ target := Ne.symm htarget
        tauto

lemma size_foldl_insert (node : Nat) (targets : List Nat) (table : Array (List Nat)) :
    (targets.foldl (fun table id => table.modify id (List.insert node)) table).size = table.size := by
  induction targets generalizing table with
  | nil => rfl
  | cons target targets ih => rw [List.foldl_cons, ih, Array.size_modify]

/-- **The table holds the predecessors of each node.** -/
lemma mem_predecessorTable {size : Nat} {nodes : List Nat} {p : Nat} (hid : id < size) :
    p ∈ (predecessorTable size next nodes)[id]?.getD [] ↔ p ∈ nodes ∧ id ∈ next p := by
  have hfold : ∀ table : Array (List Nat), id < table.size →
      (p ∈ (nodes.foldl (fun table node => (next node).foldl
          (fun table id => table.modify id (List.insert node)) table) table)[id]?.getD [] ↔
        p ∈ table[id]?.getD [] ∨ p ∈ nodes ∧ id ∈ next p) := by
    induction nodes with
    | nil => simp
    | cons node nodes ih =>
        intro table htable
        rw [List.foldl_cons, ih _ (by rwa [size_foldl_insert]), mem_foldl_insert htable, List.mem_cons]
        by_cases hp : p = node
        · subst hp
          tauto
        · tauto
  rw [predecessorTable, hfold _ (by simpa using hid)]
  simp [hid]

namespace Dominators

/-- **The map of immediate dominators** of the nodes that a root reaches. -/
structure Correct (d : Dominators) (next : Nat → List Nat) (root : Nat) : Prop where
  root_eq : d.root = root
  linked_iff : ∀ id, ((d.idoms[id]?).join).isSome ↔ Reaches next root id
  immediate_iff : ∀ id c, d.immediate? id = some c ↔ Closest (Dominates next root) c id

/-- Exact links are the map. -/
lemma correct_ofLinks {links : Links o} (h : links.Exact next) : (ofLinks links).Correct next o.root := by
  refine ⟨rfl, h.linked_iff, fun id c => ?_⟩
  rw [immediate?]
  split_ifs with hid
  · simp only [false_iff]
    rintro ⟨hne, hdom, _⟩
    exact hne ((hid ▸ hdom).eq_root.trans hid.symm)
  · exact h.closest_iff id c hid

/-- **The immediate dominators are found**, if no successor is out of range. -/
lemma compute_eq {size root : Nat} (hnext : ∀ i < size, ∀ j ∈ next i, j < size) (hroot : root < size) :
    ∃ d, compute size next root = .ok d ∧ d.Correct next root := by
  obtain ⟨others, horder, hpost⟩ := reversePostOrder_eq hnext hroot
  have hlt : ∀ id ∈ root :: others, id < size := by
    intro id hid
    exact (hpost.mem_iff.mp hid).preserves (P := (· < size)) hroot hnext
  let o := Numbering.ofList size root others
  let preds := fun id : Nat => (predecessorTable size next (root :: others))[id]?.getD []
  have hflow : FlowGraph next preds o := by
    refine ⟨hpost, ?_, fun id hid p => ?_⟩
    · exact Numbering.pairwise_place hpost.nodup fun id hid => hlt id (List.mem_cons_of_mem _ hid)
    · exact mem_predecessorTable (hlt id (List.mem_cons_of_mem _ hid))
  have hsound : (Links.single o size hroot).Sound next := Links.Sound.single hlt
  obtain ⟨hafter, hcovers⟩ := Links.iterate_round_eq hflow hsound (root :: others).length
  rw [← Links.settle_eq_iterate] at hafter hcovers
  refine ⟨_, ?_, correct_ofLinks (Links.exact_of_covers hflow hafter hcovers)⟩
  rw [compute, dif_pos hroot, horder]
  rfl

/-! ## Ways up -/

namespace Correct

variable {d : Dominators} {root : Nat}

/-- Of the nodes that the root reaches only itself has no immediate dominator. -/
lemma eq_root_of_immediate?_eq_none (h : d.Correct next root) (hb : Reaches next root b)
    (hnone : d.immediate? b = none) : b = root := by
  rw [immediate?] at hnone
  split_ifs at hnone with hroot
  · exact hroot.trans h.root_eq
  · rw [← h.linked_iff, hnone] at hb
    cases hb

lemma exists_closest (h : d.Correct next root) (hb : Reaches next root b) (hne : b ≠ root) :
    ∃ c, Closest (Dominates next root) c b := by
  cases hc : d.immediate? b with
  | none => exact absurd (h.eq_root_of_immediate?_eq_none hb hc) hne
  | some c => exact ⟨c, (h.immediate_iff b c).mp hc⟩

/-- **The way up from a node passes all of its dominators**, and nothing else. -/
lemma mem_chain_iff (h : d.Correct next root) (hb : Reaches next root b) :
    a ∈ d.chain b ↔ Dominates next root a b := by
  fun_induction Dominators.chain d b with
  | case1 b hnone =>
      obtain rfl := h.eq_root_of_immediate?_eq_none hb hnone
      rw [List.mem_singleton]
      constructor
      · rintro rfl
        exact .refl hb
      · exact Dominates.eq_root
  | case2 b c hc _ ih =>
      have hclosest := (h.immediate_iff b c).mp hc
      rw [List.mem_cons, ih hclosest.dominates.reached_left]
      constructor
      · rintro (rfl | hac)
        · exact .refl hb
        · exact hac.trans hclosest.dominates
      · intro hab
        by_cases hne : a = b
        · exact Or.inl hne
        · by_cases hac : a = c
          · exact Or.inr (hac ▸ .refl (hac ▸ hclosest.dominates.reached_left))
          · exact Or.inr (hclosest.closest a hne hab hac)

lemma nodup_chain (h : d.Correct next root) (hb : Reaches next root b) : (d.chain b).Nodup := by
  fun_induction Dominators.chain d b with
  | case1 b _ => exact List.nodup_singleton b
  | case2 b c hc _ ih =>
      have hclosest := (h.immediate_iff b c).mp hc
      have hc := hclosest.dominates.reached_left
      refine List.nodup_cons.mpr ⟨fun hmem => ?_, ih hc⟩
      exact hclosest.ne (hclosest.dominates.antisymm ((h.mem_chain_iff hc).mp hmem))

/-- The way up is there for the nodes that the root reaches, and for no others. -/
lemma dominators?_of_reaches (h : d.Correct next root) (hb : Reaches next root b) :
    d.dominators? b = some (d.chain b) :=
  if_pos ((h.linked_iff b).mpr hb)

lemma dominators?_of_not_reaches (h : d.Correct next root) (hb : ¬Reaches next root b) :
    d.dominators? b = none :=
  if_neg fun hlinked => hb ((h.linked_iff b).mp hlinked)

end Correct

end Dominators

end BytecodeFlow
