import Mathlib
import BytecodeFlow.Graph.ChainSearch
import BytecodeFlow.Proofs.NaturalLoops

/-!
# A search that leaves no marks

`ChainSearch.find` goes backwards from a tail, with marks that earlier calls have used, and then follows
the marks forwards from the header.  This file shows that the marks never lead in a circle, that what is
found is the way through the code, and that the marks are left as they were before.

**Circles.**  Marks that have not ended after as many steps as there are nodes do not end at all
(`follow_eq_endless_iff`), so `ChainSearch.follow` gives up exactly where it would go on for ever.

**The marks.**  `ChainSearch.Underway` is what every step of a call keeps: the nodes touched are those met,
the others have no marks, and the mark of a node that has been met is the node that follows it, which has
been met before.  The code leads from every node met to the tail, so the marks are followed to the tail
(`Underway.follow_eq`), and taking them off at the nodes touched leaves none (`Underway.reset_eq`).

**The search backwards.**  If the header is not met, the nodes before a node that has been met have all been
met (`Covered`, `search_eq`), so the code does not lead from the header to the tail (`met_of_chainWithin`).

**The calls.**  A call on a search without marks leaves one without marks (`find_eq`), hence all do
(`after_eq`), and the loops of a graph are the same with one search for all ways (`Closed.surveyLoops_eq`).
-/

namespace BytecodeFlow

open Relation

namespace Attempt

variable {α β : Type}

/-- A value that is there already is passed on. -/
lemma ok_bind (a : α) (f : α → Attempt β) :
    (liftM (Except.ok a : Except Error α) : Attempt α) >>= f = f a :=
  rfl

lemma pure_ne_endless (a : α) : (pure a : Attempt α) ≠ endless :=
  Option.some_ne_none _

lemma throw_ne_endless (e : Error) : (throw e : Attempt α) ≠ endless :=
  Option.some_ne_none _

lemma map_eq_endless_iff (f : α → β) (x : Attempt α) : f <$> x = endless ↔ x = endless := by
  rcases x with _ | _ | a
  · exact Iff.intro (fun _ => rfl) (fun _ => rfl)
  · exact iff_of_false (throw_ne_endless _) (throw_ne_endless _)
  · exact iff_of_false (pure_ne_endless _) (pure_ne_endless _)

end Attempt

lemma Graph.lt_size_of_following? {g : Graph} {id next : Nat} (h : g.following? id = some next) :
    id < g.size :=
  lt_size_of_mem_successors (following?_mem_successors h)

namespace ChainSearch

variable {g : Graph} {s : ChainSearch} {nextPreds : Array (Array Nat)} {header tail current pred id n : Nat}
  {preds chain : List Nat}

/-! ## The search at rest -/

/-- **A table of the nodes before each node** in the code. -/
structure Lists (g : Graph) (nextPreds : Array (Array Nat)) : Prop where
  size_eq : nextPreds.size = g.size
  mem_iff : ∀ (id : Nat) (preds : Array Nat), nextPreds[id]? = some preds →
    ∀ p, p ∈ preds ↔ g.following? p = some id

/-- The search with no marks. -/
def clean (g : Graph) (nextPreds : Array (Array Nat)) : ChainSearch where
  nextPreds := nextPreds
  cameFrom := Array.replicate g.size none
  seen := Array.replicate g.size false
  touched := #[]
  queue := []

/-- A node is entered in the list of the node that follows it. -/
lemma enter_eq (hg : g.Closed) (hsize : nextPreds.size = g.size) (id : Nat) :
    ∃ table, enter g nextPreds id = .ok table ∧ table.size = g.size ∧ ∀ k p : Nat,
      p ∈ table[k]?.getD #[] ↔ p ∈ nextPreds[k]?.getD #[] ∨ p = id ∧ g.following? p = some k := by
  cases hnext : g.following? id with
  | none =>
      refine ⟨nextPreds, by rw [enter, hnext], hsize, fun k p => ?_⟩
      have hnot : ¬(p = id ∧ g.following? p = some k) := by
        rintro ⟨rfl, h⟩
        simp [hnext] at h
      simp [hnot]
  | some next =>
      have hlt : next < g.size := hg.lt_of_mem_successors (Graph.following?_mem_successors hnext)
      refine ⟨nextPreds.modify next (·.push id), by simp [enter, hnext, hsize, hlt], by simpa using hsize,
        fun k p => ?_⟩
      rw [Array.getElem?_modify]
      by_cases hk : next = k
      · subst hk
        have hsome : nextPreds[next]? = some nextPreds[next] := Array.getElem?_eq_getElem (hsize ▸ hlt)
        have hp : p = id ∧ g.following? p = some next ↔ p = id := by
          refine and_iff_left_of_imp ?_
          rintro rfl
          exact hnext
        simp [hsome, hp]
      · have hnot : ¬(p = id ∧ g.following? p = some k) := by
          rintro ⟨rfl, h⟩
          exact hk (Option.some.inj (hnext.symm.trans h))
        simp [hk, hnot]

lemma foldlM_enter (hg : g.Closed) (ids : List Nat) (nextPreds : Array (Array Nat))
    (hsize : nextPreds.size = g.size) :
    ∃ table, ids.foldlM (enter g) nextPreds = .ok table ∧ table.size = g.size ∧ ∀ k p : Nat,
      p ∈ table[k]?.getD #[] ↔ p ∈ nextPreds[k]?.getD #[] ∨ p ∈ ids ∧ g.following? p = some k := by
  induction ids generalizing nextPreds with
  | nil => exact ⟨nextPreds, rfl, hsize, by simp⟩
  | cons id ids ih =>
      obtain ⟨table, htable, hsize, hmem⟩ := enter_eq hg hsize id
      obtain ⟨last, hlast, hsize', hmem'⟩ := ih table hsize
      refine ⟨last, ?_, hsize', fun k p => ?_⟩
      · rw [List.foldlM_cons, htable]
        exact hlast
      · rw [hmem', hmem, List.mem_cons, or_and_right, or_assoc]

lemma ofGraph_eq (hg : g.Closed) :
    ∃ nextPreds, Lists g nextPreds ∧ ofGraph g = .ok (clean g nextPreds) := by
  obtain ⟨table, htable, hsize, hmem⟩ := foldlM_enter hg g.ids (Array.replicate g.size #[]) (by simp)
  refine ⟨table, ⟨hsize, fun id preds hpreds p => ?_⟩, ?_⟩
  · have hempty : p ∉ (Array.replicate g.size (#[] : Array Nat))[id]?.getD #[] := by
      rw [Array.getElem?_replicate]
      split_ifs <;> simp
    have hids : g.following? p = some id → p ∈ g.ids := fun h =>
      List.mem_range.mpr (Graph.lt_size_of_following? h)
    have hp := hmem id p
    rw [hpreds, Option.getD_some] at hp
    rw [hp, or_iff_right hempty, and_iff_right_of_imp hids]
  · rw [ofGraph, htable]
    rfl

/-! ## Marks that lead in a circle -/

section Follow

variable {cameFrom : Array (Option Nat)} {steps : Nat}

/-- Whether the marks end within a number of steps. -/
def EndsWithin (cameFrom : Array (Option Nat)) (steps id : Nat) : Prop :=
  followWithin cameFrom steps id ≠ .endless

lemma not_endsWithin_zero : ¬EndsWithin cameFrom 0 id :=
  fun h => h rfl

lemma endsWithin_succ : EndsWithin cameFrom (steps + 1) id ↔
    ∀ next, cameFrom[id]? = some (some next) → EndsWithin cameFrom steps next := by
  rw [EndsWithin, followWithin]
  rcases hmark : cameFrom[id]? with _ | _ | next
  · simp [Attempt.throw_ne_endless]
  · simp [Attempt.pure_ne_endless]
  · simp [Attempt.map_eq_endless_iff, EndsWithin]

lemma EndsWithin.mono (h : EndsWithin cameFrom steps id) (hle : steps ≤ n) : EndsWithin cameFrom n id := by
  induction steps generalizing id n with
  | zero => exact absurd h not_endsWithin_zero
  | succ steps ih =>
      obtain ⟨n, rfl⟩ : ∃ m, n = m + 1 := ⟨n - 1, by omega⟩
      rw [endsWithin_succ] at h ⊢
      exact fun next hnext => ih (h next hnext) (by omega)

/-- Marks that take just so many steps pass through as many different nodes: from each they take one step
less than from the one before. -/
lemma exists_trail (h : EndsWithin cameFrom (steps + 1) id) (hleast : ¬EndsWithin cameFrom steps id) :
    ∃ trail : List Nat, trail.length = steps ∧ trail.Nodup ∧
      ∀ x ∈ trail, x < cameFrom.size ∧ EndsWithin cameFrom (steps + 1) x := by
  induction steps generalizing id with
  | zero => exact ⟨[], rfl, List.nodup_nil, by simp⟩
  | succ steps ih =>
      have hmore := mt endsWithin_succ.mpr hleast
      push Not at hmore
      obtain ⟨next, hnext, hless⟩ := hmore
      obtain ⟨trail, hlength, hnodup, htrail⟩ := ih (endsWithin_succ.mp h next hnext) hless
      refine ⟨id :: trail, by simp [hlength], List.nodup_cons.mpr ⟨fun hid => ?_, hnodup⟩, ?_⟩
      · exact hleast (htrail id hid).2
      · have hlt : id < cameFrom.size := (Array.getElem?_eq_some_iff.mp hnext).1
        refine List.forall_mem_cons.mpr ⟨⟨hlt, h⟩, fun x hx => ?_⟩
        exact ⟨(htrail x hx).1, (htrail x hx).2.mono (Nat.le_succ _)⟩

/-- **Marks that are given up would be followed for ever.** -/
theorem follow_eq_endless_iff :
    follow cameFrom id = .endless ↔ ∀ steps, followWithin cameFrom steps id = .endless := by
  refine ⟨fun h => ?_, fun h => h _⟩
  by_contra hends
  obtain ⟨least, hnot, hleast⟩ :
      ∃ steps, ¬EndsWithin cameFrom steps id ∧ EndsWithin cameFrom (steps + 1) id :=
    Nat.exists_not_and_succ_of_not_zero_of_exists not_endsWithin_zero (not_forall.mp hends)
  obtain ⟨trail, hlength, hnodup, htrail⟩ := exists_trail hleast hnot
  have hsub : trail.Subperm (List.range cameFrom.size) :=
    hnodup.subperm fun x hx => List.mem_range.mpr (htrail x hx).1
  have hle : least ≤ cameFrom.size := by simpa [hlength] using hsub.length_le
  exact hleast.mono (Nat.succ_le_succ hle) h

end Follow

/-! ## The search underway -/

/-- Whether the search has met a node. -/
def Met (s : ChainSearch) (id : Nat) : Prop :=
  s.seen[id]? = some true

/-- **What holds while the search goes backwards from a tail.** -/
structure Underway (g : Graph) (nextPreds : Array (Array Nat)) (tail : Nat) (s : ChainSearch) : Prop where
  nextPreds_eq : s.nextPreds = nextPreds
  size_seen : s.seen.size = g.size
  size_cameFrom : s.cameFrom.size = g.size
  touched : ∀ id, id ∈ s.touched ↔ s.Met id
  unmet : ∀ id < g.size, ¬s.Met id → s.cameFrom[id]? = some none
  tail_met : s.Met tail
  tail_last : s.cameFrom[tail]? = some none
  onward : ∀ id, s.Met id → id ≠ tail →
    ∃ next, g.following? id = some next ∧ s.cameFrom[id]? = some (some next) ∧ s.Met next
  ends : ∀ id, s.Met id → ∃ n chain, g.chainWithin n id tail = some chain
  queued : ∀ id ∈ s.queue, s.Met id

/-- The nodes before a node that has been met and left are met, or are still to be tried. -/
def Covered (g : Graph) (s : ChainSearch) (left : List Nat) : Prop :=
  ∀ id, s.Met id → id ∉ s.queue → ∀ p, g.following? p = some id → s.Met p ∨ p ∈ left

lemma met_mark (hid : id < s.seen.size) (source : Option Nat) (k : Nat) :
    (s.mark id source).Met k ↔ k = id ∨ s.Met k := by
  rw [Met, Met, mark, Array.getElem?_setIfInBounds]
  split_ifs with hk
  · simp [hk.symm]
  · simp [Ne.symm hk]

lemma cameFrom_mark (hid : id < s.cameFrom.size) (source : Option Nat) (k : Nat) :
    (s.mark id source).cameFrom[k]? = if k = id then some source else s.cameFrom[k]? := by
  simp only [mark, Array.getElem?_setIfInBounds, hid, if_true, eq_comm]

/-- Setting the cells that hold something else to a value leaves it in all cells. -/
lemma foldl_setIfInBounds_eq_replicate {α : Type} (touched : List Nat) (value : α) (marks : Array α)
    (hrest : ∀ k < marks.size, k ∉ touched → marks[k]? = some value) :
    touched.foldl (·.setIfInBounds · value) marks = Array.replicate marks.size value := by
  induction touched generalizing marks with
  | nil =>
      refine Array.ext_getElem? fun k => ?_
      rw [List.foldl_nil, Array.getElem?_replicate]
      split_ifs with hk
      · exact hrest k hk List.not_mem_nil
      · exact Array.getElem?_eq_none (Nat.le_of_not_lt hk)
  | cons id ids ih =>
      rw [List.foldl_cons, ih, Array.size_setIfInBounds]
      intro k hk hids
      rw [Array.size_setIfInBounds] at hk
      rw [Array.getElem?_setIfInBounds]
      split_ifs with hid hlt
      · rfl
      · exact absurd (hid ▸ hk) hlt
      · exact hrest k hk (by simp [Ne.symm hid, hids])

/-- A search starts with its tail as the one node met. -/
lemma met_start (nextPreds : Array (Array Nat)) (htail : tail < g.size) (k : Nat) :
    ((clean g nextPreds).mark tail none).Met k ↔ k = tail := by
  have hnone : ¬(clean g nextPreds).Met k := by
    simp [Met, clean, Array.getElem?_replicate]
  rw [met_mark (by simpa [clean] using htail), or_iff_left hnone]

namespace Underway

lemma lt_size (h : Underway g nextPreds tail s) (hid : s.Met id) : id < g.size :=
  h.size_seen ▸ (Array.getElem?_eq_some_iff.mp hid).1

/-- Another queue of nodes that have been met. -/
lemma withQueue (h : Underway g nextPreds tail s) {queue : List Nat} (hqueue : ∀ id ∈ queue, s.Met id) :
    Underway g nextPreds tail { s with queue } :=
  { h with queued := hqueue }

lemma enqueue (h : Underway g nextPreds tail s) (hid : s.Met id) :
    Underway g nextPreds tail (s.enqueue id) := by
  refine h.withQueue fun k hk => ?_
  rcases List.mem_append.mp hk with hk | hk
  · exact h.queued k hk
  · rwa [List.mem_singleton.mp hk]

/-- **Meeting a node keeps the marks in order.** -/
lemma mark (h : Underway g nextPreds tail s) (hcurrent : s.Met current) (hpred : ¬s.Met pred)
    (hnext : g.following? pred = some current) :
    Underway g nextPreds tail (s.mark pred (some current)) := by
  have hseen : pred < s.seen.size := h.size_seen ▸ Graph.lt_size_of_following? hnext
  have hcame : pred < s.cameFrom.size := h.size_cameFrom ▸ Graph.lt_size_of_following? hnext
  have hne : pred ≠ tail := by
    rintro rfl
    exact hpred h.tail_met
  have hmet := met_mark hseen (some current)
  have hlink := cameFrom_mark hcame (some current)
  refine ⟨h.nextPreds_eq, ?_, ?_, fun k => ?_, fun k hk hunmet => ?_, (hmet tail).mpr (Or.inr h.tail_met), ?_,
    fun k hk hktail => ?_, fun k hk => ?_, fun k hk => (hmet k).mpr (Or.inr (h.queued k hk))⟩
  · simpa [ChainSearch.mark] using h.size_seen
  · simpa [ChainSearch.mark] using h.size_cameFrom
  · rw [hmet, ← h.touched k]
    simp [ChainSearch.mark, or_comm]
  · rw [hmet, not_or] at hunmet
    rw [hlink, if_neg hunmet.1]
    exact h.unmet k hk hunmet.2
  · rw [hlink, if_neg hne.symm]
    exact h.tail_last
  · rcases (hmet k).mp hk with rfl | hold
    · exact ⟨current, hnext, by rw [hlink, if_pos rfl], (hmet current).mpr (Or.inr hcurrent)⟩
    · obtain ⟨next, hfollow, hcame, hnext⟩ := h.onward k hold hktail
      have hkpred : k ≠ pred := by
        rintro rfl
        exact hpred hold
      exact ⟨next, hfollow, by rw [hlink, if_neg hkpred, hcame], (hmet next).mpr (Or.inr hnext)⟩
  · rcases (hmet k).mp hk with rfl | hk
    · obtain ⟨n, chain, hchain⟩ := h.ends current hcurrent
      exact ⟨n + 1, k :: chain, Graph.chainWithin_eq_some_iff.mpr
        (Or.inr ⟨hne, current, chain, hnext, hchain, rfl⟩)⟩
    · exact h.ends k hk

/-- The marks that a search starts with. -/
lemma start (nextPreds : Array (Array Nat)) (htail : tail < g.size) :
    Underway g nextPreds tail ((clean g nextPreds).mark tail none) := by
  have hmet := met_start nextPreds htail
  have hlink : ∀ k < g.size, ((clean g nextPreds).mark tail none).cameFrom[k]? = some none := by
    intro k hk
    rw [cameFrom_mark (by simpa [clean] using htail)]
    simp [clean, hk]
  refine ⟨rfl, by simp [ChainSearch.mark, clean], by simp [ChainSearch.mark, clean], fun k => ?_,
    fun k hk _ => hlink k hk, (hmet tail).mpr rfl, hlink tail htail, fun k hk hne => ?_, fun k hk => ?_,
    by simp [ChainSearch.mark, clean]⟩
  · rw [hmet]
    simp [ChainSearch.mark, clean]
  · exact absurd ((hmet k).mp hk) hne
  · rw [(hmet k).mp hk]
    exact ⟨1, [tail], by simp [Graph.chainWithin]⟩

lemma followWithin_eq (h : Underway g nextPreds tail s) (hid : s.Met id)
    (hchain : g.chainWithin n id tail = some chain) : followWithin s.cameFrom n id = pure chain := by
  induction n generalizing id chain with
  | zero => simp [Graph.chainWithin] at hchain
  | succ n ih =>
      rw [followWithin]
      rcases Graph.chainWithin_eq_some_iff.mp hchain with ⟨rfl, rfl⟩ | ⟨hne, next, rest, hnext, hrest, rfl⟩
      · rw [h.tail_last]
      · -- only one node follows in the code, so the mark names the next node of the way
        obtain ⟨next', hnext', hcame, hmet⟩ := h.onward id hid hne
        obtain rfl : next = next' := Option.some.inj (hnext.symm.trans hnext')
        rw [hcame]
        simp only [ih hmet hrest, pure_bind]

/-- **The marks write down the way** from every node that has been met. -/
lemma follow_eq (h : Underway g nextPreds tail s) (hid : s.Met id)
    (hchain : g.chain? id tail = some chain) : follow s.cameFrom id = pure chain := by
  rw [follow, h.size_cameFrom]
  exact h.followWithin_eq hid (Graph.chainWithin_mono hchain (Nat.le_succ g.size))

/-- **Taking the marks off leaves none.** -/
lemma reset_eq (h : Underway g nextPreds tail s) : s.reset = clean g nextPreds := by
  have hseen : s.touched.foldl (·.setIfInBounds · false) s.seen = Array.replicate g.size false := by
    rw [← Array.foldl_toList, foldl_setIfInBounds_eq_replicate, h.size_seen]
    intro k hk htouched
    have hunmet : ¬s.Met k := by rwa [Array.mem_toList_iff, h.touched] at htouched
    simpa [Met, hk] using hunmet
  have hcame : s.touched.foldl (·.setIfInBounds · none) s.cameFrom = Array.replicate g.size none := by
    rw [← Array.foldl_toList, foldl_setIfInBounds_eq_replicate, h.size_cameFrom]
    intro k hk htouched
    refine h.unmet k (h.size_cameFrom ▸ hk) ?_
    rwa [Array.mem_toList_iff, h.touched] at htouched
  rw [reset, hseen, hcame, h.nextPreds_eq]
  rfl

end Underway

/-! ## Runs -/

namespace Covered

/-- A node that has been met need not be tried. -/
lemma skip (h : Covered g s (pred :: preds)) (hpred : s.Met pred) : Covered g s preds := by
  intro id hid hqueue p hp
  rcases h id hid hqueue p hp with hp | hp
  · exact Or.inl hp
  · rcases List.mem_cons.mp hp with rfl | hp
    · exact Or.inl hpred
    · exact Or.inr hp

/-- A node that is met goes into the queue, so the nodes before it need not be tried yet. -/
lemma meet (h : Covered g s (pred :: preds)) (hpred : pred < s.seen.size) (source : Option Nat) :
    Covered g ((s.mark pred source).enqueue pred) preds := by
  have hmet := met_mark hpred source
  intro id hid hqueue p hp
  obtain ⟨hold, hne⟩ : id ∉ s.queue ∧ id ≠ pred := by simpa [enqueue, mark] using hqueue
  rcases h id (((hmet id).mp hid).resolve_left hne) hold p hp with hp | hp
  · exact Or.inl ((hmet p).mpr (Or.inr hp))
  · exact (List.mem_cons.mp hp).imp_left fun hp => (hmet p).mpr (Or.inl hp)

/-- Of a node that is taken out of the queue, the nodes before it are to be tried. -/
lemma take (h : Covered g s []) {queue : List Nat} (hqueue : s.queue = current :: queue)
    (hpreds : ∀ p, g.following? p = some current → p ∈ preds) : Covered g { s with queue } preds := by
  intro id hid hleft p hp
  by_cases heq : id = current
  · subst heq
    exact Or.inr (hpreds p hp)
  · have hold : id ∉ s.queue := by simpa [hqueue, heq] using hleft
    exact Or.inl ((h id hid hold p hp).resolve_right List.not_mem_nil)

end Covered

/-- **What a search comes to**: whether the header has been met, and if not, all nodes before those met and
left have been met. -/
structure Ends (g : Graph) (nextPreds : Array (Array Nat)) (header tail : Nat) (found : Bool)
    (s : ChainSearch) : Prop where
  underway : Underway g nextPreds tail s
  found_iff : found = true ↔ s.Met header
  covered : found = false → Covered g s []

/-- **Trying the nodes before a node.** -/
lemma visit_eq (h : Underway g nextPreds tail s) (hcurrent : s.Met current)
    (hpreds : ∀ p ∈ preds, g.following? p = some current) (hcovered : Covered g s preds)
    (hheader : ¬s.Met header) :
    ∃ found s', visit header current s preds = .ok (found, s') ∧
      Ends g nextPreds header tail found s' := by
  induction preds generalizing s with
  | nil => exact ⟨false, s, rfl, ⟨h, by simp [hheader], fun _ => hcovered⟩⟩
  | cons pred preds ih =>
      obtain ⟨hnext, hpreds⟩ := List.forall_mem_cons.mp hpreds
      have hlt : pred < s.seen.size := h.size_seen ▸ Graph.lt_size_of_following? hnext
      have hseen : s.seen[pred]? = some s.seen[pred] := Array.getElem?_eq_getElem hlt
      cases hmark : s.seen[pred] with
      | true =>
          rw [hmark] at hseen
          obtain ⟨found, s', hvisit, hends⟩ := ih h hcurrent hpreds (hcovered.skip hseen) hheader
          exact ⟨found, s', by rw [visit, hseen]; exact hvisit, hends⟩
      | false =>
          rw [hmark] at hseen
          have hpred : ¬s.Met pred := by simp [Met, hseen]
          have hmarked := h.mark hcurrent hpred hnext
          have hmet := met_mark hlt (some current)
          by_cases heq : pred = header
          · subst heq
            have hends : Ends g nextPreds pred tail true (s.mark pred (some current)) :=
              ⟨hmarked, by simp [hmet], by simp⟩
            exact ⟨true, s.mark pred (some current), by rw [visit, hseen]; simp, hends⟩
          · have hheader' : ¬(s.mark pred (some current)).Met header := by
              rw [hmet, not_or]
              exact ⟨Ne.symm heq, hheader⟩
            obtain ⟨found, s', hvisit, hends⟩ := ih (hmarked.enqueue ((hmet pred).mpr (Or.inl rfl)))
              ((hmet current).mpr (Or.inr hcurrent)) hpreds (hcovered.meet hlt _) hheader'
            exact ⟨found, s', by rw [visit, hseen]; simpa [heq] using hvisit, hends⟩

lemma search_nil (hqueue : s.queue = []) : search header s = .ok (false, s) := by
  rw [search]
  split <;> simp_all

lemma search_cons {queue : List Nat} {preds : Array Nat} {found : Bool} {next : ChainSearch}
    (hqueue : s.queue = current :: queue) (hpreds : s.nextPreds[current]? = some preds)
    (hvisit : visit header current { s with queue } preds.toList = .ok (found, next)) :
    search header s = if found then .ok (true, next) else search header next := by
  rw [search]
  split
  · simp_all
  · rename_i current' queue' hqueue'
    obtain ⟨rfl, rfl⟩ := List.cons.inj (hqueue.symm.trans hqueue')
    simp only [hpreds]
    split <;> simp_all

/-- **The search backwards finds the header, or all nodes that lead to the tail.** -/
lemma search_eq (hlists : Lists g nextPreds) (h : Underway g nextPreds tail s) (hcovered : Covered g s [])
    (hheader : ¬s.Met header) :
    ∃ found s', search header s = .ok (found, s') ∧ Ends g nextPreds header tail found s' ∧
      (found = false → s'.queue = []) := by
  induction hwork : s.work using Nat.strongRecOn generalizing s with
  | ind work ih =>
      cases hqueue : s.queue with
      | nil =>
          have hends : Ends g nextPreds header tail false s := ⟨h, by simp [hheader], fun _ => hcovered⟩
          exact ⟨false, s, search_nil hqueue, hends, fun _ => hqueue⟩
      | cons current queue =>
          have hcurrent : s.Met current := h.queued current (hqueue ▸ List.mem_cons_self)
          have hlt : current < nextPreds.size := hlists.size_eq ▸ h.lt_size hcurrent
          have hpreds : nextPreds[current]? = some nextPreds[current] := Array.getElem?_eq_getElem hlt
          have hmem : ∀ p, p ∈ nextPreds[current].toList ↔ g.following? p = some current := fun p => by
            rw [Array.mem_toList_iff, hlists.mem_iff current _ hpreds]
          obtain ⟨found, s', hvisit, hends⟩ := visit_eq
            (h.withQueue fun id hid => h.queued id (hqueue ▸ List.mem_cons_of_mem _ hid))
            hcurrent (fun p => (hmem p).mp) (hcovered.take hqueue fun p => (hmem p).mpr) hheader
          rw [search_cons hqueue (h.nextPreds_eq ▸ hpreds) hvisit]
          cases found with
          | true => exact ⟨true, s', rfl, hends, by simp⟩
          | false =>
              have hunmet : ¬s'.Met header := by simpa using hends.found_iff
              have hless : s'.work < work := hwork ▸ work_visit_lt hqueue hvisit
              exact ih _ hless hends.underway (hends.covered rfl) hunmet rfl

/-- A search that has run out of nodes has met every node from which the code leads to the tail. -/
lemma met_of_chainWithin (hmet : s.Met tail) (hcovered : Covered g s []) (hqueue : s.queue = [])
    (hchain : g.chainWithin n id tail = some chain) : s.Met id := by
  induction n generalizing id chain with
  | zero => simp [Graph.chainWithin] at hchain
  | succ n ih =>
      rcases Graph.chainWithin_eq_some_iff.mp hchain with ⟨rfl, -⟩ | ⟨-, next, rest, hnext, hrest, -⟩
      · exact hmet
      · exact (hcovered next (ih hrest) (by simp [hqueue]) id hnext).resolve_right List.not_mem_nil

/-- **A search finds the way through the code, and leaves no marks.** -/
lemma find_eq (hg : g.Closed) (hlists : Lists g nextPreds) (header : Nat) (htail : tail < g.size) :
    (clean g nextPreds).find header tail = pure (g.chain? header tail, clean g nextPreds) := by
  rw [find]
  by_cases heq : header = tail
  · subst heq
    have hchain : g.chainWithin 1 header header = some [header] := by simp [Graph.chainWithin]
    rw [if_pos rfl, hg.chain?_of_chainWithin htail hchain]
  · rw [if_neg heq, if_pos (by simpa [clean] using htail)]
    have hmet := met_start nextPreds htail
    have hcovered : Covered g (((clean g nextPreds).mark tail none).enqueue tail) [] := by
      intro id hid hqueue
      exact absurd ((hmet id).mp hid) (by simpa [enqueue, mark, clean] using hqueue)
    have hstart := (Underway.start nextPreds htail).enqueue ((hmet tail).mpr rfl)
    obtain ⟨found, s', hsearch, hends, hqueue⟩ := search_eq hlists hstart hcovered (mt (hmet header).mp heq)
    rw [hsearch, Attempt.ok_bind]
    simp only [hends.underway.reset_eq]
    cases found with
    | true =>
        have hheader : s'.Met header := hends.found_iff.mp rfl
        have hlt : header < g.size := hends.underway.lt_size hheader
        obtain ⟨n, chain, hchain⟩ := hends.underway.ends header hheader
        have hchain := hg.chain?_of_chainWithin hlt hchain
        rw [hchain, if_pos rfl, hends.underway.follow_eq hheader hchain]
        rfl
    | false =>
        have hnone : g.chain? header tail = none := by
          refine Option.eq_none_iff_forall_ne_some.mpr fun chain hchain => ?_
          have hheader := met_of_chainWithin hends.underway.tail_met (hends.covered rfl) (hqueue rfl) hchain
          exact Bool.false_ne_true (hends.found_iff.mpr hheader)
        rw [hnone]
        rfl

end ChainSearch

/-! ## Ways -/

namespace Graph

variable {g : Graph} {header tail : Nat} {chain : List Nat}

/-- **The way from a header to a tail**: from the header on, each node is followed by the next one, up to the
first occurrence of the tail, and none occurs twice. -/
structure IsWay (g : Graph) (header tail : Nat) (chain : List Nat) : Prop where
  starts : chain.head? = some header
  follows : chain.IsChain fun a b => g.following? a = some b
  ends : chain.getLast? = some tail
  first : tail ∉ chain.dropLast
  nodup : chain.Nodup

lemma IsWay.of_chain? (h : g.chain? header tail = some chain) : g.IsWay header tail chain := by
  have hlast := getLast?_of_chainWithin h
  have hnodup := nodup_of_chainWithin h
  refine ⟨head?_of_chainWithin h, isChain_of_chainWithin h, hlast, fun hmem => ?_, hnodup⟩
  rw [← List.dropLast_append_getLast? tail hlast] at hnodup
  exact (List.nodup_append.mp hnodup).2.2 tail hmem tail (by simp) rfl

lemma IsWay.reaches (h : g.IsWay header tail chain) :
    ReflTransGen (fun a b => g.following? a = some b) header tail := by
  obtain ⟨body, rfl⟩ := List.head?_eq_some_iff.mp h.starts
  refine List.relationReflTransGen_of_exists_isChain_cons body h.follows ?_
  exact Option.some.inj ((List.getLast?_eq_getLast_of_ne_nil _).symm.trans h.ends)

/-- Only nodes lead to a node. -/
lemma lt_size_of_reaches (htail : tail < g.size)
    (h : ReflTransGen (fun a b => g.following? a = some b) header tail) : header < g.size := by
  rcases h.cases_head with rfl | ⟨next, hnext, _⟩
  · exact htail
  · exact lt_size_of_following? hnext

/-- **The way through the code is found exactly where there is one**, and is the only one. -/
lemma Closed.chain?_eq_some_iff (hg : g.Closed) (htail : tail < g.size) :
    g.chain? header tail = some chain ↔ g.IsWay header tail chain := by
  refine ⟨IsWay.of_chain?, fun h => ?_⟩
  obtain ⟨body, rfl⟩ := List.head?_eq_some_iff.mp h.starts
  exact hg.chain?_of_chainWithin (lt_size_of_reaches htail h.reaches)
    (chainWithin_of_isChain h.follows h.nodup h.ends)

lemma Closed.isSome_chain?_iff (hg : g.Closed) (htail : tail < g.size) :
    (g.chain? header tail).isSome ↔ ReflTransGen (fun a b => g.following? a = some b) header tail := by
  refine ⟨fun h => ?_, fun h => hg.isSome_chain? (lt_size_of_reaches htail h) h⟩
  obtain ⟨chain, hchain⟩ := Option.isSome_iff_exists.mp h
  exact (IsWay.of_chain? hchain).reaches

end Graph

/-! ## Calls -/

namespace ChainSearch

variable {g : Graph} {nextPreds : Array (Array Nat)}

/-- The search as it is left behind by calls for a header and a tail each. -/
def after (s : ChainSearch) (calls : List (Nat × Nat)) : Attempt ChainSearch :=
  calls.foldlM (fun s call => do return (← s.find call.1 call.2).2) s

/-- **No call leaves a mark**, whether it finds a way or not. -/
lemma after_eq (hg : g.Closed) (hlists : Lists g nextPreds) (calls : List (Nat × Nat))
    (hcalls : ∀ call ∈ calls, call.2 < g.size) :
    (clean g nextPreds).after calls = pure (clean g nextPreds) := by
  induction calls with
  | nil => rfl
  | cons call calls ih =>
      obtain ⟨htail, hcalls⟩ := List.forall_mem_cons.mp hcalls
      rw [after, List.foldlM_cons, find_eq hg hlists call.1 htail, pure_bind, pure_bind]
      exact ih hcalls

/-- **A search without a trace of earlier calls.** -/
structure Unmarked (g : Graph) (s : ChainSearch) : Prop where
  seen : s.seen = Array.replicate g.size false
  cameFrom : s.cameFrom = Array.replicate g.size none
  touched : s.touched = #[]
  queue : s.queue = []

lemma unmarked_clean (g : Graph) (nextPreds : Array (Array Nat)) : Unmarked g (clean g nextPreds) :=
  ⟨rfl, rfl, rfl, rfl⟩

/-- **A call is exact and leaves no trace.**  Behind any calls on the search of a graph, the next one ends.
It answers with a way if and only if the code leads from the header to the tail, and then with the way up to
the first occurrence of the tail.  It leaves the search without marks, as it was when it was new, and a new
search answers the same. -/
theorem find_exact_and_traceless (g : Graph) (hg : g.Closed) (calls : List (Nat × Nat))
    (hcalls : ∀ call ∈ calls, call.2 < g.size) (header tail : Nat) (htail : tail < g.size) :
    ∃ fresh used left answer, ofGraph g = .ok fresh ∧ fresh.after calls = pure used ∧
      used.find header tail = pure (answer, left) ∧
      (answer.isSome ↔ ReflTransGen (fun a b => g.following? a = some b) header tail) ∧
      (∀ chain, answer = some chain ↔ g.IsWay header tail chain) ∧
      Unmarked g left ∧ left = fresh ∧ fresh.find header tail = pure (answer, left) := by
  obtain ⟨nextPreds, hlists, hfresh⟩ := ofGraph_eq hg
  have hfind := find_eq hg hlists header htail
  exact ⟨clean g nextPreds, clean g nextPreds, clean g nextPreds, g.chain? header tail, hfresh,
    after_eq hg hlists calls hcalls, hfind, hg.isSome_chain?_iff htail,
    fun _ => hg.chain?_eq_some_iff htail, unmarked_clean g nextPreds, rfl, hfind⟩

/-- Two calls find nothing, one of them around two nodes that follow each other, and one finds a way between
these.  Behind them the way from the entry to the exit is found. -/
theorem find_exact_and_traceless_twisted :
    Graph.twisted.Closed ∧ (∀ call ∈ [(0, 5), (4, 5), (3, 1)], call.2 < Graph.twisted.size) ∧
      3 < Graph.twisted.size ∧ ∃ fresh used left,
        ofGraph Graph.twisted = .ok fresh ∧ fresh.after [(0, 5), (4, 5), (3, 1)] = pure used ∧
        used.find 0 3 = pure (some [0, 1, 2, 3], left) ∧ Unmarked Graph.twisted left := by
  obtain ⟨fresh, used, left, answer, hfresh, hused, hfind, -, hway, hleft, -⟩ :=
    find_exact_and_traceless Graph.twisted (by decide) [(0, 5), (4, 5), (3, 1)] (by decide) 0 3 (by decide)
  have hchain : Graph.twisted.IsWay 0 3 [0, 1, 2, 3] :=
    ⟨rfl, by decide, rfl, by decide, by decide⟩
  obtain rfl := (hway _).mpr hchain
  exact ⟨by decide, by decide, by decide, fresh, used, left, hfresh, hused, hfind, hleft⟩

end ChainSearch

/-! ## The loops of a graph -/

namespace Survey

variable {g : Graph} {s : Survey} {nextPreds : Array (Array Nat)} {scan last : Scan} {id node : Nat}
  {left : List Nat} {frames rest : List Frame}

open ChainSearch

lemma close_chain? (scan : Scan) (chains : ChainSearch) (header tail : Nat) :
    close g ⟨scan, chains⟩ header (g.chain? header tail) chains = ⟨scan.close g header tail, chains⟩ := by
  rw [Scan.close]
  cases g.chain? header tail with
  | none => rfl
  | some body => rfl

/-! ### Steps -/

lemma run_fresh (h : s.scan.visits[id]? = some .fresh) :
    run g s (⟨node, id :: left⟩ :: rest)
      = run g { s with scan := s.scan.enter id } (⟨id, g.successors id⟩ :: ⟨node, left⟩ :: rest) := by
  obtain ⟨hlt, hv⟩ := Array.getElem?_eq_some_iff.mp h
  rw [run, dif_pos hlt]
  split <;> simp_all

lemma run_active (h : s.scan.visits[id]? = some .active) :
    run g s (⟨node, id :: left⟩ :: rest) = s.chains.find id node >>= fun found =>
      run g (s.close g id found.1 found.2) (⟨node, left⟩ :: rest) := by
  obtain ⟨hlt, hv⟩ := Array.getElem?_eq_some_iff.mp h
  rw [run, dif_pos hlt]
  split <;> simp_all

lemma run_done (h : s.scan.visits[id]? = some .done) :
    run g s (⟨node, id :: left⟩ :: rest) = run g s (⟨node, left⟩ :: rest) := by
  obtain ⟨hlt, hv⟩ := Array.getElem?_eq_some_iff.mp h
  rw [run, dif_pos hlt]
  split <;> simp_all

/-! ### Runs -/

/-- **A search from a stack of frames is the same with one search for all ways.** -/
lemma run_eq (hg : g.Closed) (hlists : Lists g nextPreds) (hsize : scan.visits.size = g.size)
    (hnodes : ∀ frame ∈ frames, frame.node < g.size) (hrun : Scan.run g scan frames = .ok last) :
    run g ⟨scan, clean g nextPreds⟩ frames = pure ⟨last, clean g nextPreds⟩ := by
  fun_induction Scan.run g scan frames with
  | case1 scan =>
      obtain rfl := Except.ok.inj hrun
      rw [run]
  | case2 scan node rest ih =>
      rw [run]
      exact ih (by simpa [Scan.leave] using hsize) (List.forall_mem_cons.mp hnodes).2 hrun
  | case3 scan node id left rest hlt hv ih =>
      have hid : scan.visits[id]? = some .fresh := by rw [Array.getElem?_eq_getElem hlt, hv]
      rw [run_fresh hid]
      refine ih (by simpa [Scan.enter] using hsize) ?_ hrun
      simpa [hsize ▸ hlt] using hnodes
  | case4 scan node id left rest hlt hv ih =>
      have hid : scan.visits[id]? = some .active := by rw [Array.getElem?_eq_getElem hlt, hv]
      obtain ⟨hnode, _⟩ := List.forall_mem_cons.mp hnodes
      rw [run_active hid, find_eq hg hlists id hnode, pure_bind, close_chain?]
      exact ih (by rwa [Scan.visits_close]) (by simpa using hnodes) hrun
  | case5 scan node id left rest hlt hv ih =>
      have hid : scan.visits[id]? = some .done := by rw [Array.getElem?_eq_getElem hlt, hv]
      rw [run_done hid]
      exact ih hsize (by simpa using hnodes) hrun
  | case6 => cases hrun

lemma fromRoot_eq (hg : g.Closed) (hlists : Lists g nextPreds) (hsize : scan.visits.size = g.size)
    {root : Nat} (hrun : Scan.fromRoot g scan root = .ok last) :
    fromRoot g ⟨scan, clean g nextPreds⟩ root = pure ⟨last, clean g nextPreds⟩ := by
  rw [Scan.fromRoot] at hrun
  rw [fromRoot]
  split_ifs at hrun ⊢ with hfresh
  · have hroot : root < g.size := hsize ▸ (Array.getElem?_eq_some_iff.mp hfresh).1
    exact run_eq hg hlists (by simpa [Scan.enter] using hsize) (by simpa using hroot) hrun
  · rw [Except.ok.inj hrun]

lemma foldlM_fromRoot_eq (hg : g.Closed) (hlists : Lists g nextPreds) (roots : List Nat)
    (h : Scan.Covers g scan []) :
    ∃ last, roots.foldlM (Scan.fromRoot g) scan = .ok last ∧
      roots.foldlM (fromRoot g) ⟨scan, clean g nextPreds⟩ = pure ⟨last, clean g nextPreds⟩ := by
  induction roots generalizing scan with
  | nil => exact ⟨scan, rfl, rfl⟩
  | cons root roots ih =>
      obtain ⟨mid, hmid, _, hcovers⟩ := Scan.fromRoot_eq hg h root
      obtain ⟨last, hlast, hsurvey⟩ := ih hcovers
      refine ⟨last, ?_, ?_⟩
      · rw [List.foldlM_cons, hmid]
        exact hlast
      · rw [List.foldlM_cons, fromRoot_eq hg hlists h.size_eq hmid, pure_bind]
        exact hsurvey

end Survey

/-- **One search for all ways finds the loops of the graph.** -/
theorem Graph.Closed.surveyLoops_eq {g : Graph} (hg : g.Closed) :
    ∃ loops, g.loops = .ok loops ∧ g.surveyLoops = pure loops := by
  obtain ⟨nextPreds, hlists, hchains⟩ := ChainSearch.ofGraph_eq hg
  obtain ⟨last, hlast, hsurvey⟩ :=
    Survey.foldlM_fromRoot_eq hg hlists (g.entry :: g.ids) (Scan.covers_start g)
  refine ⟨last.loops.toList, ?_, ?_⟩
  · rw [loops]
    simp only [← Scan.start.eq_def, hlast]
    rfl
  · rw [surveyLoops, hchains, Attempt.ok_bind]
    simp only [← Scan.start.eq_def, hsurvey, pure_bind]

end BytecodeFlow
