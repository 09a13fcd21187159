import Mathlib
import BytecodeFlow.Proofs.Passes
import BytecodeFlow.Proofs.Spelling

/-!
# The spanning tree is that of a plain depth-first search

The search that builds the spanning tree keeps the edges to follow in one list.  `discover` is the same
search as a plain recursion: go down from every new target, then on to the next target.

**The plain recursion.**  `Discovery` says what it discovers: nodes that are new, each once, and all the
targets; every link is along an edge; and the edges of what is discovered lead back to a node visited
before, or down (`back_or_below`).  Passing over a target and entering one keep this (`Discovery.skip`,
`Discovery.enter`).

**The listing.**  Printing a node and putting its children in front of what waits prints the nodes in the
order of their discovery (`lists_discover`), because all that is discovered from a node comes before its
next sibling.  `SpanningTree.render` prints such a listing (`SpanningTree.printFrom_eq`).

**The tree.**  `SpanningTree.Records` says that the tables of a tree hold a list of links.  Attaching a node
records one link more (`Records.attach`), and the search attaches what the recursion discovers
(`grow_eq_discover`).
-/

namespace BytecodeFlow

/-! ## The plain recursion -/

lemma offTrail_append_le (size : Nat) (more trail : List Nat) :
    offTrail size (more ++ trail) ≤ offTrail size trail := by
  refine Finset.card_le_card fun x hx => ?_
  simp only [Finset.mem_filter, List.mem_append, not_or] at hx ⊢
  exact ⟨hx.1, hx.2.2⟩

section Recursion

variable (size : Nat) (next : Nat → List Nat)

/-- **The plain depth-first search** from a node along its targets, as the links from the nodes it comes
from to the nodes it discovers, in the order of discovery.  A node that was seen before is passed over, and
so is a number that names no node. -/
def discover (seen : List Nat) (parent : Nat) (targets : List Nat) : List (Nat × Nat) :=
  match targets with
  | [] => []
  | child :: rest =>
    if child ∈ seen ∨ size ≤ child then discover seen parent rest
    else
      let below := discover (child :: seen) child (next child)
      (parent, child) :: (below ++ discover (below.map Prod.snd ++ child :: seen) parent rest)
termination_by (offTrail size seen, targets.length)
decreasing_by
  · exact Prod.Lex.right _ (by simp)
  · exact Prod.Lex.left _ _ (offTrail_cons_lt ‹_›)
  · exact Prod.Lex.left _ _ (lt_of_le_of_lt (offTrail_append_le _ _ _) (offTrail_cons_lt ‹_›))

/-- Whether links lead from a node down to another one, or the nodes are the same. -/
def Below (links : List (Nat × Nat)) : Nat → Nat → Prop :=
  Relation.ReflTransGen fun a b => (a, b) ∈ links

/-- **What a search discovers**, apart from the order of the children. -/
structure Discovery (seen : List Nat) (parent : Nat) (targets : List Nat) (links : List (Nat × Nat)) :
    Prop where
  fresh : ∀ id ∈ links.map Prod.snd, id ∉ seen ∧ id < size
  nodup : (links.map Prod.snd).Nodup
  covers : ∀ id ∈ targets, id < size → id ∈ seen ∨ id ∈ links.map Prod.snd
  origin : ∀ link ∈ links, link.1 = parent ∧ link.2 ∈ targets ∨
    link.1 ∈ links.map Prod.snd ∧ link.2 ∈ next link.1
  descends : ∀ id ∈ links.map Prod.snd, Below links parent id
  forward : ∀ u ∈ links.map Prod.snd, ∀ v ∈ next u, v < size →
    v ∈ seen ∨ [v, u].Sublist (links.map Prod.snd) ∨ Below links u v

variable {size next} {seen rest : List Nat} {parent child : Nat} {links below after : List (Nat × Nat)}

lemma Below.mono {links' : List (Nat × Nat)} {u v : Nat} (h : Below links u v) (hsub : links ⊆ links') :
    Below links' u v :=
  Relation.ReflTransGen.mono (fun _ _ hlink => hsub hlink) u v h

namespace Discovery

lemma nil : Discovery size next seen parent [] [] where
  fresh := by simp
  nodup := by simp
  covers := by simp
  origin := by simp
  descends := by simp
  forward := by simp

lemma skip (hold : child ∈ seen ∨ size ≤ child) (h : Discovery size next seen parent rest links) :
    Discovery size next seen parent (child :: rest) links where
  fresh := h.fresh
  nodup := h.nodup
  covers := by
    intro id hid hlt
    rcases List.mem_cons.mp hid with rfl | hid
    · exact .inl (hold.resolve_right (by omega))
    · exact h.covers id hid hlt
  origin := by
    intro link hlink
    exact (h.origin link hlink).imp_left (And.imp_right (List.mem_cons_of_mem _))
  descends := h.descends
  forward := h.forward

section Enter

variable {id : Nat} (hnew : ¬(child ∈ seen ∨ size ≤ child))
  (hbelow : Discovery size next (child :: seen) child (next child) below)
  (hafter : Discovery size next (below.map Prod.snd ++ child :: seen) parent rest after)

include hbelow in
lemma fresh_below (hid : id ∈ below.map Prod.snd) : id ≠ child ∧ id ∉ seen := by
  simpa only [List.mem_cons, not_or] using (hbelow.fresh id hid).1

include hafter in
lemma fresh_after (hid : id ∈ after.map Prod.snd) : id ∉ below.map Prod.snd ∧ id ≠ child ∧ id ∉ seen := by
  simpa only [List.mem_append, List.mem_cons, not_or] using (hafter.fresh id hid).1

lemma map_snd_enter (parent child : Nat) (below after : List (Nat × Nat)) :
    ((parent, child) :: (below ++ after)).map Prod.snd =
      child :: (below.map Prod.snd ++ after.map Prod.snd) := by
  simp

include hbelow hafter

/-- No node is discovered twice. -/
lemma nodup_enter : (((parent, child) :: (below ++ after)).map Prod.snd).Nodup := by
  rw [map_snd_enter, List.nodup_cons, List.mem_append, List.nodup_append]
  refine ⟨?_, hbelow.nodup, hafter.nodup, ?_⟩
  · rintro (hid | hid)
    · exact (hbelow.fresh_below hid).1 rfl
    · exact (hafter.fresh_after hid).2.1 rfl
  · rintro a ha b hb rfl
    exact (hafter.fresh_after hb).1 ha

/-- An edge of the child leads to a node that was seen before or down; an edge of a node below it may also
lead back to the child, and an edge of a node after it to all that came before. -/
lemma forward_enter (u : Nat) (hu : u ∈ ((parent, child) :: (below ++ after)).map Prod.snd) (v : Nat)
    (hv : v ∈ next u) (hlt : v < size) :
    v ∈ seen ∨ [v, u].Sublist (((parent, child) :: (below ++ after)).map Prod.snd) ∨
      Below ((parent, child) :: (below ++ after)) u v := by
  have hbelow_sub : below ⊆ (parent, child) :: (below ++ after) := by simp
  have hafter_sub : after ⊆ (parent, child) :: (below ++ after) := by simp
  rw [map_snd_enter] at hu ⊢
  rw [List.mem_cons, List.mem_append] at hu
  rcases hu with rfl | hu | hu
  · rcases hbelow.covers v hv hlt with h | h
    · rcases List.mem_cons.mp h with rfl | h
      · exact .inr (.inr .refl)
      · exact .inl h
    · exact .inr (.inr ((hbelow.descends v h).mono hbelow_sub))
  · rcases hbelow.forward u hu v hv hlt with h | h | h
    · rcases List.mem_cons.mp h with rfl | h
      · refine .inr (.inl (List.Sublist.cons_cons _ ?_))
        exact List.singleton_sublist.mpr (List.mem_append_left _ hu)
      · exact .inl h
    · exact .inr (.inl ((h.trans (List.sublist_append_left _ _)).cons _))
    · exact .inr (.inr (h.mono hbelow_sub))
  · have hlast := List.singleton_sublist.mpr hu
    rcases hafter.forward u hu v hv hlt with h | h | h
    · rw [List.mem_append, List.mem_cons] at h
      rcases h with h | rfl | h
      · exact .inr (.inl (((List.singleton_sublist.mpr h).append hlast).cons _))
      · exact .inr (.inl (List.Sublist.cons_cons _ (hlast.trans (List.sublist_append_right _ _))))
      · exact .inl h
    · exact .inr (.inl ((h.trans (List.sublist_append_right _ _)).cons _))
    · exact .inr (.inr (h.mono hafter_sub))

include hnew in
lemma enter : Discovery size next seen parent (child :: rest) ((parent, child) :: (below ++ after)) where
  fresh := by
    rw [not_or, Nat.not_le] at hnew
    rw [map_snd_enter, List.forall_mem_cons, List.forall_mem_append]
    refine ⟨hnew, fun id hid => ?_, fun id hid => ?_⟩
    · exact ⟨(hbelow.fresh_below hid).2, (hbelow.fresh id hid).2⟩
    · exact ⟨(hafter.fresh_after hid).2.2, (hafter.fresh id hid).2⟩
  nodup := nodup_enter hbelow hafter
  covers := by
    intro id hid hlt
    rw [map_snd_enter, List.mem_cons, List.mem_append]
    rcases List.mem_cons.mp hid with rfl | hid
    · exact .inr (.inl rfl)
    · rcases hafter.covers id hid hlt with hold | hfound
      · rw [List.mem_append, List.mem_cons] at hold
        rcases hold with hold | hold | hold
        · exact .inr (.inr (.inl hold))
        · exact .inr (.inl hold)
        · exact .inl hold
      · exact .inr (.inr (.inr hfound))
  origin := by
    rw [map_snd_enter, List.forall_mem_cons, List.forall_mem_append]
    refine ⟨.inl ⟨rfl, List.mem_cons_self⟩, fun link hlink => ?_, fun link hlink => ?_⟩
    · rcases hbelow.origin link hlink with ⟨h, hmem⟩ | ⟨h, hmem⟩
      · exact .inr ⟨h ▸ List.mem_cons_self, h ▸ hmem⟩
      · exact .inr ⟨List.mem_cons_of_mem _ (List.mem_append_left _ h), hmem⟩
    · rcases hafter.origin link hlink with ⟨h, hmem⟩ | ⟨h, hmem⟩
      · exact .inl ⟨h, List.mem_cons_of_mem _ hmem⟩
      · exact .inr ⟨List.mem_cons_of_mem _ (List.mem_append_right _ h), hmem⟩
  descends := by
    have hchild : Below ((parent, child) :: (below ++ after)) parent child :=
      Relation.ReflTransGen.single List.mem_cons_self
    rw [map_snd_enter, List.forall_mem_cons, List.forall_mem_append]
    refine ⟨hchild, fun id hid => ?_, fun id hid => ?_⟩
    · exact hchild.trans ((hbelow.descends id hid).mono (by simp))
    · exact (hafter.descends id hid).mono (by simp)
  forward := forward_enter hbelow hafter

end Enter

end Discovery

/-- **A plain search discovers what `Discovery` says.** -/
lemma discovery_discover (size : Nat) (next : Nat → List Nat) (seen : List Nat) (parent : Nat)
    (targets : List Nat) :
    Discovery size next seen parent targets (discover size next seen parent targets) := by
  fun_induction discover size next seen parent targets with
  | case1 => exact .nil
  | case2 seen parent child rest hold ih => exact ih.skip hold
  | case3 seen parent child rest hnew below ih₁ ih₂ => exact ih₁.enter hnew ih₂

/-! ## The listing -/

/-- The nodes that links lead to from a node, in order. -/
def linkedFrom (links : List (Nat × Nat)) (id : Nat) : List Nat :=
  (links.filter fun link => link.1 = id).map Prod.snd

/-- Children are linked in the order of discovery. -/
lemma linkedFrom_append (links links' : List (Nat × Nat)) (id : Nat) :
    linkedFrom (links ++ links') id = linkedFrom links id ++ linkedFrom links' id := by
  simp [linkedFrom]

lemma linkedFrom_cons (links : List (Nat × Nat)) (parent child id : Nat) :
    linkedFrom ((parent, child) :: links) id =
      if parent = id then child :: linkedFrom links id else linkedFrom links id := by
  by_cases h : parent = id <;> simp [linkedFrom, h]

lemma mem_linkedFrom {id : Nat} : child ∈ linkedFrom links id ↔ (id, child) ∈ links := by
  simp [linkedFrom]

/-- Only the node where a search starts and the nodes it discovers have children. -/
lemma Discovery.linkedFrom_eq_nil {targets : List Nat} {id : Nat}
    (h : Discovery size next seen parent targets links) (hid : id ≠ parent)
    (hnew : id ∉ links.map Prod.snd) : linkedFrom links id = [] := by
  rw [List.eq_nil_iff_forall_not_mem]
  intro child hchild
  rcases h.origin _ (mem_linkedFrom.mp hchild) with ⟨heq, _⟩ | ⟨hmem, _⟩
  · exact hid heq
  · exact hnew hmem

/-- **The listing of a tree** by its lists of children: the node in front is printed, and its children
wait in its place. -/
inductive Listing (children : Nat → List Nat) : List Nat → List Nat → Prop where
  | done : Listing children [] []
  | print {id : Nat} {waiting printed : List Nat} :
      Listing children (children id ++ waiting) printed →
        Listing children (id :: waiting) (id :: printed)

/-- Whether a listing that comes to the children of a node prints what was discovered from it, in this
order, before it goes on. -/
def Lists (parent : Nat) (links : List (Nat × Nat)) : Prop :=
  ∀ (children : Nat → List Nat) (waiting printed : List Nat),
    (∀ id ∈ links.map Prod.snd, children id = linkedFrom links id) →
    Listing children waiting printed →
      Listing children (linkedFrom links parent ++ waiting) (links.map Prod.snd ++ printed)

section Enter

variable {id : Nat} (hparent : parent ∈ seen) (hnew : ¬(child ∈ seen ∨ size ≤ child))
  (hbelow : Discovery size next (child :: seen) child (next child) below)
  (hafter : Discovery size next (below.map Prod.snd ++ child :: seen) parent rest after)

include hparent hnew hbelow

/-- No node is below itself. -/
lemma parent_not_mem_below : parent ∉ child :: below.map Prod.snd := by
  intro h
  rcases List.mem_cons.mp h with rfl | h
  · exact hnew (.inl hparent)
  · exact (hbelow.fresh_below h).2 hparent

lemma linkedFrom_parent :
    linkedFrom ((parent, child) :: (below ++ after)) parent = child :: linkedFrom after parent := by
  have hout := parent_not_mem_below hparent hnew hbelow
  rw [List.mem_cons, not_or] at hout
  rw [linkedFrom_cons, if_pos rfl, linkedFrom_append, hbelow.linkedFrom_eq_nil hout.1 hout.2,
    List.nil_append]

include hafter

/-- The search inside a child links what is below it. -/
lemma linkedFrom_of_mem_below (hid : id ∈ child :: below.map Prod.snd) :
    linkedFrom ((parent, child) :: (below ++ after)) id = linkedFrom below id := by
  have hne : parent ≠ id := fun h => parent_not_mem_below hparent hnew hbelow (h ▸ hid)
  have hout : id ∉ after.map Prod.snd := by
    intro h
    obtain ⟨hbelow', hchild, _⟩ := hafter.fresh_after h
    rcases List.mem_cons.mp hid with hid | hid
    · exact hchild hid
    · exact hbelow' hid
  rw [linkedFrom_cons, if_neg hne, linkedFrom_append, hafter.linkedFrom_eq_nil hne.symm hout,
    List.append_nil]

omit hnew in
/-- What is found later is linked from elsewhere. -/
lemma linkedFrom_of_mem_after (hid : id ∈ after.map Prod.snd) :
    linkedFrom ((parent, child) :: (below ++ after)) id = linkedFrom after id := by
  obtain ⟨hbelow', hchild, hseen⟩ := hafter.fresh_after hid
  have hne : parent ≠ id := fun h => hseen (h ▸ hparent)
  rw [linkedFrom_cons, if_neg hne, linkedFrom_append, hbelow.linkedFrom_eq_nil hchild hbelow',
    List.nil_append]

/-- The children of a node that is entered are listed before its next sibling. -/
lemma Lists.enter (h : Lists child below) (h' : Lists parent after) :
    Lists parent ((parent, child) :: (below ++ after)) := by
  intro children waiting printed hchildren hlisting
  rw [List.map_cons, List.map_append] at hchildren ⊢
  have hbelow_children : ∀ id ∈ child :: below.map Prod.snd, children id = linkedFrom below id := by
    intro id hid
    rw [hchildren id (List.mem_append_left _ hid),
      linkedFrom_of_mem_below hparent hnew hbelow hafter hid]
  have hafter_children : ∀ id ∈ after.map Prod.snd, children id = linkedFrom after id := by
    intro id hid
    rw [hchildren id (List.mem_cons_of_mem _ (List.mem_append_right _ hid)),
      linkedFrom_of_mem_after hparent hbelow hafter hid]
  have hrest := h' children waiting printed hafter_children hlisting
  have hall := h children _ _ (List.forall_mem_cons.mp hbelow_children).2 hrest
  rw [← hbelow_children child List.mem_cons_self, ← List.append_assoc (below.map Prod.snd)] at hall
  rw [linkedFrom_parent hparent hnew hbelow]
  exact Listing.print hall

end Enter

/-- **A search has discovered the nodes in the order of the listing.** -/
lemma lists_discover (seen : List Nat) (parent : Nat) (targets : List Nat) (hparent : parent ∈ seen) :
    Lists parent (discover size next seen parent targets) := by
  fun_induction discover size next seen parent targets with
  | case1 => exact fun _ _ _ _ h => h
  | case2 seen parent child rest hold ih => exact ih hparent
  | case3 seen parent child rest hnew below ih₁ ih₂ =>
      exact (ih₁ List.mem_cons_self).enter hparent hnew (discovery_discover ..) (discovery_discover ..)
        (ih₂ (by simp [hparent]))

end Recursion

/-! ## The tree that the search leaves -/

namespace SpanningTree

variable {g : Graph} {tree : SpanningTree} {links : List (Nat × Nat)} {parent child : Nat}

/-- Attaching a node gives it a depth, and leaves the other depths alone. -/
lemma depth?_attach (hspans : tree.Spans g) (hlt : child < g.size) (id : Nat) :
    (tree.attach parent child).depth? id =
      if child = id then some ((tree.depth? parent).getD 0 + 1) else tree.depth? id := by
  rw [depth?, attach, Array.getElem?_setIfInBounds, hspans.depths]
  split_ifs <;> rfl

lemma parent?_attach (hspans : tree.Spans g) (hlt : child < g.size) (id : Nat) :
    (tree.attach parent child).parent? id = if child = id then some parent else tree.parent? id := by
  rw [parent?, attach, Array.getElem?_setIfInBounds, hspans.parents]
  split_ifs <;> rfl

/-- An attached node becomes the last child of its parent. -/
lemma childrenOf_attach (hspans : tree.Spans g) (hlt : parent < g.size) (id : Nat) :
    ((tree.attach parent child).childrenOf id).toList =
      if parent = id then (tree.childrenOf id).toList ++ [child] else (tree.childrenOf id).toList := by
  rw [childrenOf, attach, childrenOf, Array.getElem?_modify]
  split_ifs with h
  · subst h
    rw [Array.getElem?_eq_getElem (hspans.children ▸ hlt)]
    simp
  · rfl

/-- **Printing by the lists of children** prints the lines of a listing, if there are enough lines for it. -/
lemma printFrom_eq {waiting printed : List Nat}
    (h : Listing (fun id => (tree.childrenOf id).toList) waiting printed) {lines : Nat}
    (hlines : printed.length ≤ lines) (text : String) :
    tree.printFrom g lines text waiting = text ++ String.join (printed.map (tree.line g)) := by
  induction h generalizing lines text with
  | done => simp [printFrom]
  | @print id waiting printed _ ih =>
      obtain ⟨lines, rfl⟩ : ∃ more, lines = more + 1 := Nat.exists_eq_add_one.mpr (by simp at hlines; omega)
      rw [printFrom, ih (by simpa using hlines), List.map_cons, String.join_cons, String.append_assoc]

/-- **A tree records the links of a search**, in all its tables. -/
structure Records (g : Graph) (links : List (Nat × Nat)) (tree : SpanningTree) : Prop where
  spans : tree.Spans g
  root_eq : tree.root = g.entry
  contains : ∀ id, tree.contains id = true ↔ id ∈ g.entry :: links.map Prod.snd
  parent : ∀ p c, tree.parent? c = some p ↔ (p, c) ∈ links
  children : ∀ id, (tree.childrenOf id).toList = linkedFrom links id
  root : tree.depth? g.entry = some 0
  depth : ∀ link ∈ links, ∃ d, tree.depth? link.1 = some d ∧ tree.depth? link.2 = some (d + 1)

namespace Records

lemma single (h : g.entry < g.size) : Records g [] (.single g.size g.entry) where
  spans := .single g g.entry
  root_eq := rfl
  contains := by
    intro id
    by_cases hid : g.entry = id
    · simp [SpanningTree.contains, depth?, SpanningTree.single, ← hid, h]
    · simp only [SpanningTree.contains, depth?, SpanningTree.single,
        Array.getElem?_setIfInBounds_ne hid, Array.getElem?_replicate]
      split_ifs <;> simp [Ne.symm hid]
  parent := by
    intro p c
    simp only [parent?, SpanningTree.single, Array.getElem?_replicate]
    split_ifs <;> simp
  children := by
    intro id
    simp only [childrenOf, SpanningTree.single, Array.getElem?_replicate]
    split_ifs <;> rfl
  root := by simp [depth?, SpanningTree.single, h]
  depth := by simp

/-- Attaching a node records one more link.  The tables change for its two nodes only, and neither the
depths nor the parents that were recorded are those of the new node. -/
lemma attach (h : Records g links tree) (hparent : parent ∈ g.entry :: links.map Prod.snd)
    (hchild : child ∉ g.entry :: links.map Prod.snd) (hlt : child < g.size) :
    Records g (links ++ [(parent, child)]) (tree.attach parent child) := by
  have hparent_lt : parent < g.size := h.spans.contained parent ((h.contains parent).mpr hparent)
  have hkeep : ∀ id ∈ g.entry :: links.map Prod.snd,
      (tree.attach parent child).depth? id = tree.depth? id := by
    intro id hid
    have hne : child ≠ id := fun heq => hchild (heq ▸ hid)
    rw [depth?_attach h.spans hlt, if_neg hne]
  refine ⟨h.spans.attach hlt, h.root_eq, ?_, ?_, ?_, ?_, ?_⟩
  · intro id
    rw [SpanningTree.contains, depth?_attach h.spans hlt]
    split_ifs with heq
    · simp [heq]
    · have := h.contains id
      rw [SpanningTree.contains] at this
      rw [this]
      simp [Ne.symm heq]
  · intro p c
    rw [parent?_attach h.spans hlt, List.mem_append, ← h.parent, List.mem_singleton, Prod.mk.injEq]
    split_ifs with heq
    · -- no link to the new node was there
      have hnone : tree.parent? c ≠ some p := by
        rw [Ne, h.parent]
        exact fun hmem => hchild (heq ▸ List.mem_cons_of_mem _ (List.mem_map_of_mem hmem))
      simp [hnone, heq, eq_comm]
    · simp [Ne.symm heq]
  · intro id
    rw [childrenOf_attach h.spans hparent_lt, h.children, linkedFrom_append]
    split_ifs with heq <;> simp [linkedFrom, heq]
  · rw [hkeep _ List.mem_cons_self, h.root]
  · rw [List.forall_mem_append, List.forall_mem_singleton]
    refine ⟨fun link hlink => ?_, ?_⟩
    · obtain ⟨d, hsource, htarget⟩ := h.depth link hlink
      have hin {id : Nat} {d : Nat} (hid : tree.depth? id = some d) : id ∈ g.entry :: links.map Prod.snd :=
        (h.contains id).mp (by rw [SpanningTree.contains, hid, Option.isSome_some])
      exact ⟨d, (hkeep _ (hin hsource)).trans hsource, (hkeep _ (hin htarget)).trans htarget⟩
    · obtain ⟨d, hd⟩ := Option.isSome_iff_exists.mp ((h.contains parent).mpr hparent)
      refine ⟨d, (hkeep _ hparent).trans hd, ?_⟩
      rw [depth?_attach h.spans hlt, if_pos rfl, hd, Option.getD_some]

end Records

/-- The pending edge that comes first decides what the search does next. -/
lemma grow_cons (hspans : tree.Spans g) (hlt : child < g.size) (rest : List (Nat × Nat)) :
    grow g tree ((parent, child) :: rest) =
      if tree.contains child then grow g tree rest
      else grow g (tree.attach parent child) (edgesFrom g child ++ rest) := by
  have hlt' : child < tree.depths.size := hspans.depths ▸ hlt
  rw [grow, dif_pos hlt', contains, depth?, Array.getElem?_eq_getElem hlt', Option.join_some]

/-- What has been seen are the nodes that were discovered. -/
lemma mem_seen_append {seen : List Nat} (hseen : ∀ id, id ∈ seen ↔ id ∈ g.entry :: links.map Prod.snd)
    (more : List (Nat × Nat)) (id : Nat) :
    id ∈ more.map Prod.snd ++ seen ↔ id ∈ g.entry :: (links ++ more).map Prod.snd := by
  rw [List.map_append, ← List.cons_append, List.mem_append, List.mem_append, hseen, or_comm]

/-- **The search follows the plain recursion.**  What waits behind the edges of a node is not touched
before all that is discovered from the node has been attached. -/
lemma grow_eq_discover (hg : g.Closed) (seen : List Nat) (parent : Nat) (targets : List Nat)
    (htargets : ∀ id ∈ targets, id < g.size) (hparent : parent ∈ seen) (links : List (Nat × Nat))
    (tree : SpanningTree) (h : Records g links tree)
    (hseen : ∀ id, id ∈ seen ↔ id ∈ g.entry :: links.map Prod.snd) :
    ∃ grown, Records g (links ++ discover g.size g.successors seen parent targets) grown ∧
      ∀ rest, grow g tree (targets.map (fun target => (parent, target)) ++ rest) = grow g grown rest := by
  fun_induction discover g.size g.successors seen parent targets generalizing links tree with
  | case1 seen parent => exact ⟨tree, by simpa using h, fun rest => rfl⟩
  | case2 seen parent child rest hold ih =>
      obtain ⟨hlt, hrest⟩ := List.forall_mem_cons.mp htargets
      obtain ⟨grown, hgrown, hgrow⟩ := ih hrest hparent links tree h hseen
      have hin : child ∈ seen := hold.resolve_right (Nat.not_le.mpr hlt)
      refine ⟨grown, hgrown, fun more => ?_⟩
      rw [List.map_cons, List.cons_append, grow_cons h.spans hlt,
        if_pos ((h.contains child).mpr ((hseen child).mp hin)), hgrow]
  | case3 seen parent child rest hnew below ih₁ ih₂ =>
      obtain ⟨hlt, hrest⟩ := List.forall_mem_cons.mp htargets
      have hout : child ∉ g.entry :: links.map Prod.snd := fun hmem => hnew (.inl ((hseen child).mpr hmem))
      have hseen₁ := mem_seen_append hseen [(parent, child)]
      have hattached := h.attach ((hseen parent).mp hparent) hout hlt
      obtain ⟨middle, hmiddle, hgrow₁⟩ := ih₁ (fun id hid => hg.lt_of_mem_successors hid)
        List.mem_cons_self _ _ hattached hseen₁
      obtain ⟨grown, hgrown, hgrow₂⟩ := ih₂ hrest (by simp [hparent]) _ middle hmiddle
        (mem_seen_append hseen₁ below)
      refine ⟨grown, by simpa using hgrown, fun more => ?_⟩
      rw [List.map_cons, List.cons_append, grow_cons h.spans hlt,
        if_neg (fun hin => hout ((h.contains child).mp hin)), edgesFrom, hgrow₁, hgrow₂]

end SpanningTree

/-! ## The tree of a graph -/

namespace Graph

variable {g : Graph}

/-- The links of the plain search from the entry, which tries the slots of a node in their order. -/
def discoveries (g : Graph) : List (Nat × Nat) :=
  discover g.size g.successors [g.entry] g.entry (g.successors g.entry)

/-- The nodes in the order in which the plain search comes to them. -/
def preorder (g : Graph) : List Nat :=
  g.entry :: g.discoveries.map Prod.snd

/-- **The spanning tree of a closed graph records the plain search.** -/
lemma Closed.spanningTree_eq (hg : g.Closed) (hentry : g.entry < g.size) :
    ∃ tree, g.spanningTree = .ok tree ∧ tree.Records g g.discoveries := by
  obtain ⟨tree, htree, hgrow⟩ := SpanningTree.grow_eq_discover hg [g.entry] g.entry
    (g.successors g.entry) (fun id hid => hg.lt_of_mem_successors hid) List.mem_cons_self [] _
    (.single hentry) (by simp)
  refine ⟨tree, ?_, htree⟩
  have := hgrow []
  rwa [List.append_nil, SpanningTree.grow] at this

lemma discovery_discoveries (g : Graph) :
    Discovery g.size g.successors [g.entry] g.entry (g.successors g.entry) g.discoveries :=
  discovery_discover ..

/-- The search enters no node twice. -/
lemma nodup_preorder (g : Graph) : g.preorder.Nodup := by
  refine List.nodup_cons.mpr ⟨fun h => ?_, g.discovery_discoveries.nodup⟩
  exact (g.discovery_discoveries.fresh _ h).1 List.mem_cons_self

/-- What is discovered is discovered along an edge of the graph, from a node of the tree. -/
lemma mem_discoveries {p c : Nat} (h : (p, c) ∈ g.discoveries) :
    p ∈ g.preorder ∧ c ∈ g.preorder ∧ c ∈ g.successors p := by
  have hc : c ∈ g.preorder := List.mem_cons_of_mem _ (List.mem_map_of_mem h)
  rcases g.discovery_discoveries.origin _ h with ⟨rfl, hmem⟩ | ⟨hp, hmem⟩
  · exact ⟨List.mem_cons_self, hc, hmem⟩
  · exact ⟨List.mem_cons_of_mem _ hp, hc, hmem⟩

/-- **An edge leads back to a node that was visited before, or down.** -/
lemma back_or_below {u v : Nat} (hu : u ∈ g.preorder) (hv : v ∈ g.successors u) (hlt : v < g.size) :
    [v, u].Sublist g.preorder ∨ Below g.discoveries u v := by
  have hd := g.discovery_discoveries
  rcases List.mem_cons.mp hu with rfl | hu
  · refine .inr ?_
    rcases hd.covers v hv hlt with hseen | hfound
    · rw [List.mem_singleton.mp hseen]
      exact .refl
    · exact hd.descends v hfound
  · rcases hd.forward u hu v hv hlt with hseen | hbefore | hbelow
    · rw [List.mem_singleton.mp hseen]
      exact .inl (List.Sublist.cons_cons _ (List.singleton_sublist.mpr hu))
    · exact .inl (hbefore.cons _)
    · exact .inr hbelow

/-- **The order in which nodes are entered is the order in which the tree is listed.** -/
lemma listing_preorder (g : Graph) : Listing (linkedFrom g.discoveries) [g.entry] g.preorder := by
  have h : Lists g.entry g.discoveries := lists_discover _ _ _ List.mem_cons_self
  refine .print ?_
  simpa using h (linkedFrom g.discoveries) [] [] (fun _ _ => rfl) .done

end Graph

namespace SpanningTree

/-- The line of a node: two spaces for every level, and the instruction. -/
def IsLine (g : Graph) (tree : SpanningTree) (id : Nat) (line : String) : Prop :=
  ∃ depth i, tree.depth? id = some depth ∧ g.instruction? id = some i ∧
    line = String.ofList (List.replicate (2 * depth) ' ') ++ i.text ∧ '\n' ∉ line.toList

/-- **The tree of the plain depth-first search of a graph.** -/
structure IsDepthFirst (g : Graph) (tree : SpanningTree) : Prop where
  /-- The root is the entry. -/
  root_eq : tree.root = g.entry
  root : tree.contains g.entry = true ∧ tree.depth? g.entry = some 0 ∧ tree.parent? g.entry = none
  /-- Every other node of the tree hangs below one node, in the list of children of this node only. -/
  parent : ∀ c, tree.contains c = true → c ≠ g.entry → ∃ p, tree.parent? c = some p ∧
    (tree.childrenOf p).toList.count c = 1 ∧ (∀ q, c ∈ tree.childrenOf q → q = p) ∧
    (∃ d, tree.depth? p = some d ∧ tree.depth? c = some (d + 1)) ∧ c ∈ g.successors p
  /-- The other nodes are not recorded. -/
  outside : ∀ id, tree.contains id = false →
    tree.parent? id = none ∧ tree.childrenOf id = #[] ∧ tree.depth? id = none
  /-- Parents and children are those of the plain search, in its order. -/
  parents_eq : ∀ p c, tree.parent? c = some p ↔ (p, c) ∈ g.discoveries
  children_eq : ∀ id, (tree.childrenOf id).toList = linkedFrom g.discoveries id
  /-- The nodes of the tree are those that the plain search visits, each once. -/
  contains_iff : ∀ id, tree.contains id = true ↔ id ∈ g.preorder
  nodup : g.preorder.Nodup
  /-- An edge leads back to a node that was visited before, or down. -/
  edge : ∀ u v, tree.contains u = true → v ∈ g.successors u →
    [v, u].Sublist g.preorder ∨ Relation.ReflTransGen (fun p c => tree.parent? c = some p) u v
  /-- The listing by children is in the order of the visits, and has one line for every node. -/
  listing : Listing (fun id => (tree.childrenOf id).toList) [g.entry] g.preorder
  render : ∃ lines, tree.render g = String.join (lines.map (· ++ "\n")) ∧
    List.Forall₂ (IsLine g tree) g.preorder lines

namespace Records

variable {g : Graph} {tree : SpanningTree}

/-- Only what has been discovered has a parent. -/
lemma parent?_eq_none (h : tree.Records g g.discoveries) {id : Nat}
    (hid : id ∉ g.discoveries.map Prod.snd) : tree.parent? id = none := by
  rw [Option.eq_none_iff_forall_ne_some]
  intro p hp
  exact hid (List.mem_map_of_mem ((h.parent p id).mp hp))

/-- A node that the search discovered hangs below the node it was discovered from, and nowhere else. -/
lemma exists_parent (h : tree.Records g g.discoveries) {c : Nat} (hc : tree.contains c = true)
    (hroot : c ≠ g.entry) :
    ∃ p, tree.parent? c = some p ∧ (tree.childrenOf p).toList.count c = 1 ∧
      (∀ q, c ∈ tree.childrenOf q → q = p) ∧
      (∃ d, tree.depth? p = some d ∧ tree.depth? c = some (d + 1)) ∧ c ∈ g.successors p := by
  have hmem := (h.contains c).mp hc
  rw [List.mem_cons, or_iff_right hroot, List.mem_map] at hmem
  obtain ⟨⟨p, c⟩, hlink, rfl⟩ := hmem
  refine ⟨p, (h.parent p c).mpr hlink, ?_, ?_, h.depth _ hlink, (Graph.mem_discoveries hlink).2.2⟩
  · rw [h.children]
    refine List.count_eq_one_of_mem ?_ (mem_linkedFrom.mpr hlink)
    exact g.discovery_discoveries.nodup.sublist (List.filter_sublist.map _)
  · intro q hq
    rw [← Array.mem_toList_iff, h.children, mem_linkedFrom, ← h.parent] at hq
    rw [(h.parent p c).mpr hlink] at hq
    exact (Option.some.inj hq).symm

lemma isLine (h : tree.Records g g.discoveries) {id : Nat} (hid : id ∈ g.preorder) :
    ∃ line, SpanningTree.line g tree id = line ++ "\n" ∧ IsLine g tree id line := by
  obtain ⟨depth, hdepth⟩ := Option.isSome_iff_exists.mp ((h.contains id).mpr hid)
  have hlt : id < g.size := h.spans.contained id ((h.contains id).mpr hid)
  obtain ⟨node, hnode⟩ := Graph.nodes_eq_some_of_lt hlt
  have hinstruction : g.instruction? id = some node.instruction := by
    rw [Graph.instruction?, hnode, Option.map_some]
  refine ⟨_, ?_, depth, node.instruction, hdepth, hinstruction, rfl, ?_⟩
  · rw [SpanningTree.line, hdepth, hinstruction]
    rfl
  · simp [node.instruction.newline_not_mem_text, List.mem_replicate]

lemma listing (h : tree.Records g g.discoveries) :
    Listing (fun id => (tree.childrenOf id).toList) [g.entry] g.preorder := by
  rw [funext h.children]
  exact g.listing_preorder

/-- There are enough lines for the nodes that were visited. -/
lemma length_preorder_le (h : tree.Records g g.discoveries) : g.preorder.length ≤ tree.depths.size := by
  have hsub : g.preorder ⊆ List.range g.size := fun id hid =>
    List.mem_range.mpr (h.spans.contained id ((h.contains id).mpr hid))
  have hle := (g.nodup_preorder.subperm hsub).length_le
  rwa [List.length_range, ← h.spans.depths] at hle

/-- The lines of a listing are those of the visited nodes, in order. -/
lemma render_eq (h : tree.Records g g.discoveries) :
    ∃ lines, tree.render g = String.join (lines.map (· ++ "\n")) ∧
      List.Forall₂ (IsLine g tree) g.preorder lines := by
  choose! line hline hisLine using fun id (hid : id ∈ g.preorder) => h.isLine hid
  refine ⟨g.preorder.map line, ?_, ?_⟩
  · have hroot : tree.contains tree.root = true := by
      rw [h.root_eq]
      exact (h.contains g.entry).mpr List.mem_cons_self
    rw [render, if_pos hroot, h.root_eq, printFrom_eq h.listing h.length_preorder_le, String.empty_append,
      List.map_map]
    exact congrArg String.join (List.map_congr_left hline)
  · rw [List.forall₂_map_right_iff, List.forall₂_same]
    exact hisLine

lemma outside (h : tree.Records g g.discoveries) {id : Nat} (hid : tree.contains id = false) :
    tree.parent? id = none ∧ tree.childrenOf id = #[] ∧ tree.depth? id = none := by
  have hout : id ∉ g.preorder := by
    intro hmem
    rw [(h.contains id).mpr hmem] at hid
    cases hid
  refine ⟨h.parent?_eq_none fun hmem => hout (List.mem_cons_of_mem _ hmem), ?_, ?_⟩
  · rw [← Array.toList_eq_nil_iff, h.children, List.eq_nil_iff_forall_not_mem]
    intro c hc
    exact hout (Graph.mem_discoveries (mem_linkedFrom.mp hc)).1
  · rwa [SpanningTree.contains, Option.isSome_eq_false_iff, Option.isNone_iff_eq_none] at hid

end Records

end SpanningTree

/-- **The spanning tree is that of the plain depth-first search.** -/
theorem Graph.spanningTree_isDepthFirst (g : Graph) (hg : g.Closed) (hentry : g.entry < g.size) :
    ∃ tree, g.spanningTree = .ok tree ∧ tree.IsDepthFirst g := by
  obtain ⟨tree, heq, h⟩ := hg.spanningTree_eq hentry
  have hentry_new : g.entry ∉ g.discoveries.map Prod.snd := (List.nodup_cons.mp g.nodup_preorder).1
  refine ⟨tree, heq, h.root_eq, ?_, fun c => h.exists_parent, fun id => h.outside, h.parent, h.children,
    h.contains, g.nodup_preorder, ?_, ?_, h.render_eq⟩
  · exact ⟨(h.contains _).mpr List.mem_cons_self, h.root, h.parent?_eq_none hentry_new⟩
  · intro u v hu hv
    refine (back_or_below ((h.contains u).mp hu) hv (hg.lt_of_mem_successors hv)).imp_right ?_
    exact Relation.ReflTransGen.mono (fun p c hlink => (h.parent p c).mpr hlink) u v
  · exact h.listing

/-- In the sample graph the exit is first entered at the end of the loop, and the node that nothing leads
to is not in the tree. -/
theorem Graph.spanningTree_isDepthFirst_sample :
    sample.Closed ∧ sample.entry < sample.size ∧ sample.preorder = [0, 1, 3, 4, 5, 6] ∧
      ∃ tree, sample.spanningTree = .ok tree ∧ tree.IsDepthFirst sample ∧ tree.parent? 5 = some 4 ∧
        tree.contains 2 = false := by
  obtain ⟨tree, heq, h⟩ := spanningTree_isDepthFirst sample (by decide) (by decide)
  have hpreorder : sample.preorder = [0, 1, 3, 4, 5, 6] := by cbv
  have hlink : (4, 5) ∈ sample.discoveries := by
    have : sample.discoveries = [(0, 1), (1, 3), (3, 4), (4, 5), (5, 6)] := by cbv
    simp [this]
  refine ⟨by decide, by decide, hpreorder, tree, heq, h, (h.parents_eq 4 5).mpr hlink, ?_⟩
  rw [Bool.eq_false_iff, Ne, h.contains_iff, hpreorder]
  decide

end BytecodeFlow
