import Mathlib
import BytecodeFlow.Graph.Reach

/-!
# Walks, and what the search for them finds

`Walk next a b path` says that `path` leads from `a` to `b` along a successor function, both ends
included.  Statements about all ways through a graph are statements about walks; the searches are
compared with them.

**Walks.**  They can be put together (`Walk.append`), cut at a node they pass (`Walk.split`,
`Walk.before`) or before their last step (`Walk.last_step`), stopped at the first visit of their end
(`Walk.to_first`), taken without visiting a node twice (`Walk.to_simple`) and turned round
(`Walk.reversed`).

**The search.**  `spread` keeps a list of nodes to visit.  What it leaves marked is described by
`Spread`: nothing is unmarked, what was pending is marked, a newly marked node has its successors
marked, and it can be reached from a pending one.  `reach_eq` puts this together: the marks of a
search are the nodes that a walk leads to.
-/

namespace BytecodeFlow

variable {next back : Nat → List Nat} {a b c v : Nat} {path : List Nat}

/-! ## Walks -/

/-- **A walk** along a successor function, with the nodes that it passes. -/
inductive Walk (next : Nat → List Nat) : Nat → Nat → List Nat → Prop where
  | single (a : Nat) : Walk next a a [a]
  | cons {a b c : Nat} {path : List Nat} :
      b ∈ next a → Walk next b c path → Walk next a c (a :: path)

/-- Whether a walk leads from one node to another. -/
def Reaches (next : Nat → List Nat) (a b : Nat) : Prop :=
  ∃ path, Walk next a b path

namespace Walk

lemma ne_nil (h : Walk next a b path) : path ≠ [] := by
  cases h <;> simp

lemma exists_eq_cons (h : Walk next a b path) : ∃ tail, path = a :: tail := by
  cases h with
  | single => exact ⟨[], rfl⟩
  | cons _ h => exact ⟨_, rfl⟩

lemma first_mem (h : Walk next a b path) : a ∈ path := by
  obtain ⟨tail, rfl⟩ := h.exists_eq_cons
  exact List.mem_cons_self

lemma exists_eq_append (h : Walk next a b path) : ∃ init, path = init ++ [b] := by
  induction h with
  | single a => exact ⟨[], rfl⟩
  | @cons a b c path hab _ ih =>
      obtain ⟨init, rfl⟩ := ih
      exact ⟨a :: init, rfl⟩

lemma last_mem (h : Walk next a b path) : b ∈ path := by
  obtain ⟨init, rfl⟩ := h.exists_eq_append
  simp

lemma mem_iff (h : Walk next a b path) : v ∈ path ↔ v ∈ path.dropLast ∨ v = b := by
  obtain ⟨init, rfl⟩ := h.exists_eq_append
  simp

/-- Two walks of which the second starts where the first ends make one. -/
lemma append {tail : List Nat} (h : Walk next a b path) (h' : Walk next b c (b :: tail)) :
    Walk next a c (path ++ tail) := by
  induction h with
  | single a => exact h'
  | cons hab _ ih => exact .cons hab (ih h')

lemma snoc (h : Walk next a b path) (hbc : c ∈ next b) : Walk next a c (path ++ [c]) :=
  h.append (.cons hbc (.single c))

/-- **A walk can be cut at any node it passes.** -/
lemma split (h : Walk next a b path) (hv : v ∈ path) :
    ∃ init tail, path = init ++ v :: tail ∧ Walk next a v (init ++ [v]) ∧
      Walk next v b (v :: tail) := by
  induction h with
  | single a =>
      obtain rfl : v = a := by simpa using hv
      exact ⟨[], [], rfl, .single v, .single v⟩
  | @cons a b c path hab hbc ih =>
      rcases List.mem_cons.mp hv with rfl | hv
      · exact ⟨[], path, rfl, .single v, .cons hab hbc⟩
      · obtain ⟨init, tail, rfl, hinit, htail⟩ := ih hv
        exact ⟨a :: init, tail, rfl, .cons hab hinit, htail⟩

/-- Stopping at the first visit of a node gives a walk that has not passed it before its end. -/
lemma to_first (h : Walk next a b path) : ∃ short, Walk next a b short ∧ b ∉ short.dropLast := by
  induction h with
  | single a => exact ⟨[a], .single a, by simp⟩
  | @cons a b c path hab hbc ih =>
      by_cases hca : c = a
      · subst hca
        exact ⟨[c], .single c, by simp⟩
      · obtain ⟨short, hshort, hnot⟩ := ih
        refine ⟨a :: short, .cons hab hshort, ?_⟩
        rw [List.dropLast_cons_of_ne_nil hshort.ne_nil]
        simp [hca, hnot]

/-- A node that a walk passes before its end is reached without going further. -/
lemma before (h : Walk next a b path) (hv : v ∈ path.dropLast) :
    ∃ short, Walk next a v short ∧ ∀ x ∈ short, x ∈ path.dropLast := by
  induction h with
  | single a => simp at hv
  | @cons a b c path hab hbc ih =>
      rw [List.dropLast_cons_of_ne_nil hbc.ne_nil] at hv ⊢
      rcases List.mem_cons.mp hv with rfl | hv
      · exact ⟨[v], .single v, by simp⟩
      · obtain ⟨short, hshort, hsub⟩ := ih hv
        refine ⟨a :: short, .cons hab hshort, fun x hx => ?_⟩
        rcases List.mem_cons.mp hx with rfl | hx
        · exact List.mem_cons_self
        · exact List.mem_cons_of_mem _ (hsub x hx)

/-- A walk stays where it is or has a last step. -/
lemma last_step (h : Walk next a b path) :
    path = [a] ∨ ∃ p init, path = init ++ [b] ∧ Walk next a p init ∧ b ∈ next p := by
  induction h with
  | single a => exact Or.inl rfl
  | @cons a b c path hab hbc ih =>
      right
      rcases ih with rfl | ⟨p, init, rfl, hinit, hp⟩
      · obtain rfl : c = b := by simpa using hbc.last_mem
        exact ⟨a, [a], rfl, .single a, hab⟩
      · exact ⟨p, a :: init, rfl, .cons hab hinit, hp⟩

/-- **A walk can be taken without visiting a node twice.** -/
lemma to_simple (h : Walk next a b path) :
    ∃ short, Walk next a b short ∧ short.Nodup ∧ short.Sublist path := by
  induction h with
  | single a => exact ⟨[a], .single a, by simp, .refl _⟩
  | @cons a b c path hab _ ih =>
      obtain ⟨short, hshort, hnodup, hsub⟩ := ih
      by_cases hmem : a ∈ short
      · -- the rest of the walk comes back to `a`, so it can start there
        obtain ⟨init, tail, rfl, _, htail⟩ := hshort.split hmem
        have htail' : List.Sublist (a :: tail) (init ++ a :: tail) := List.sublist_append_right _ _
        exact ⟨a :: tail, htail, hnodup.sublist htail', (htail'.trans hsub).cons a⟩
      · exact ⟨a :: short, .cons hab hshort, List.nodup_cons.mpr ⟨hmem, hnodup⟩, hsub.cons_cons a⟩

/-- **A walk turned round** is a walk along the reversed edges. -/
lemma reversed (h : Walk next a b path) (hback : ∀ x ∈ path, ∀ y ∈ next x, x ∈ back y) :
    Walk back b a path.reverse := by
  induction h with
  | single a => exact .single a
  | cons hab _ ih =>
      rw [List.reverse_cons]
      refine (ih fun x hx => ?_).snoc (hback _ List.mem_cons_self _ hab)
      exact hback x (List.mem_cons_of_mem _ hx)

/-- A walk does not leave a set that its edges do not leave. -/
lemma forall_mem {P : Nat → Prop} (h : Walk next a b path) (ha : P a)
    (hstep : ∀ x, P x → ∀ y ∈ next x, P y) : ∀ x ∈ path, P x := by
  induction h with
  | single a => simpa using ha
  | cons hab _ ih =>
      intro x hx
      rcases List.mem_cons.mp hx with rfl | hx
      · exact ha
      · exact ih (hstep _ ha _ hab) x hx

end Walk

/-! ## Reachability -/

namespace Reaches

lemma refl (next : Nat → List Nat) (a : Nat) : Reaches next a a :=
  ⟨[a], .single a⟩

lemma head (hab : b ∈ next a) (h : Reaches next b c) : Reaches next a c := by
  obtain ⟨path, h⟩ := h
  exact ⟨a :: path, .cons hab h⟩

lemma tail (h : Reaches next a b) (hbc : c ∈ next b) : Reaches next a c := by
  obtain ⟨path, h⟩ := h
  exact ⟨path ++ [c], h.snoc hbc⟩

/-- What holds at the start and along every edge holds at every node reached. -/
lemma preserves {P : Nat → Prop} (h : Reaches next a b) (ha : P a)
    (hstep : ∀ x, P x → ∀ y ∈ next x, P y) : P b := by
  obtain ⟨path, h⟩ := h
  exact h.forall_mem ha hstep b h.last_mem

end Reaches

/-! ## The search -/

/-- **What a search adds to the marks it starts with.** -/
structure Spread (next : Nat → List Nat) (seen : Array Bool) (pending : List Nat)
    (marks : Array Bool) : Prop where
  size_eq : marks.size = seen.size
  grows : ∀ i : Nat, seen[i]? = some true → marks[i]? = some true
  visited : ∀ i ∈ pending, marks[i]? = some true
  closed : ∀ i : Nat, marks[i]? = some true →
    seen[i]? = some true ∨ ∀ j ∈ next i, marks[j]? = some true
  sound : ∀ i : Nat, marks[i]? = some true → seen[i]? = some true ∨ ∃ p ∈ pending, Reaches next p i

namespace Spread

variable {seen marks : Array Bool} {id : Nat} {rest : List Nat}

/-- A pending node that is marked already adds nothing. -/
lemma skip (hseen : seen[id]? = some true) (h : Spread next seen rest marks) :
    Spread next seen (id :: rest) marks where
  size_eq := h.size_eq
  grows := h.grows
  visited := by
    intro i hi
    rcases List.mem_cons.mp hi with rfl | hi
    · exact h.grows i hseen
    · exact h.visited i hi
  closed := h.closed
  sound := by
    intro i hi
    refine (h.sound i hi).imp_right ?_
    rintro ⟨p, hp, hreach⟩
    exact ⟨p, List.mem_cons_of_mem _ hp, hreach⟩

/-- A pending node that is not marked is marked, and its successors are pending in its place. -/
lemma visit (hid : id < seen.size) (h : Spread next (seen.set id true) (next id ++ rest) marks) :
    Spread next seen (id :: rest) marks := by
  -- the new mark set holds the old one and `id`, which is marked because it was pending
  have hset : ∀ i : Nat, (seen.set id true)[i]? = some true ↔ i = id ∨ seen[i]? = some true := by
    intro i
    rw [Array.getElem?_set]
    split_ifs with hi
    · simp [hi]
    · simp [Ne.symm hi]
  have hmark : marks[id]? = some true := h.grows id ((hset id).mpr (Or.inl rfl))
  refine ⟨by simpa using h.size_eq, fun i hi => h.grows i ((hset i).mpr (Or.inr hi)), ?_, ?_, ?_⟩
  · intro i hi
    rcases List.mem_cons.mp hi with rfl | hi
    · exact hmark
    · exact h.visited i (List.mem_append_right _ hi)
  · intro i hi
    rcases h.closed i hi with hold | hnext
    · rcases (hset i).mp hold with rfl | hold
      · exact Or.inr fun j hj => h.visited j (List.mem_append_left _ hj)
      · exact Or.inl hold
    · exact Or.inr hnext
  · intro i hi
    rcases h.sound i hi with hold | ⟨p, hp, hreach⟩
    · rcases (hset i).mp hold with rfl | hold
      · exact Or.inr ⟨i, List.mem_cons_self, .refl next i⟩
      · exact Or.inl hold
    · rcases List.mem_append.mp hp with hp | hp
      · exact Or.inr ⟨id, List.mem_cons_self, hreach.head hp⟩
      · exact Or.inr ⟨p, List.mem_cons_of_mem _ hp, hreach⟩

end Spread

/-- **The search ends with a result**, if neither the pending nodes nor the successors of a node
are out of range, and the result is as described by `Spread`. -/
lemma spread_eq (next : Nat → List Nat) (seen : Array Bool) (pending : List Nat)
    (hnext : ∀ i < seen.size, ∀ j ∈ next i, j < seen.size) (hpending : ∀ i ∈ pending, i < seen.size) :
    ∃ marks, spread next seen pending = .ok marks ∧ Spread next seen pending marks := by
  fun_induction spread next seen pending with
  | case1 seen => exact ⟨seen, rfl, rfl, by simp, by simp, by simp +contextual, by simp +contextual⟩
  | case2 seen id rest hid hseen ih =>
      obtain ⟨marks, heq, h⟩ := ih hnext fun i hi => hpending i (List.mem_cons_of_mem _ hi)
      exact ⟨marks, heq, h.skip (by simp [hid, hseen])⟩
  | case3 seen id rest hid _ ih =>
      have hpend : ∀ i ∈ next id ++ rest, i < (seen.set id true).size := by
        intro i hi
        rw [Array.size_set]
        rcases List.mem_append.mp hi with hi | hi
        · exact hnext id hid i hi
        · exact hpending i (List.mem_cons_of_mem _ hi)
      obtain ⟨marks, heq, h⟩ := ih (by simpa using hnext) hpend
      exact ⟨marks, heq, h.visit hid⟩
  | case4 seen id rest hid => exact absurd (hpending id List.mem_cons_self) hid

/-- **The search from one node marks the nodes that it reaches.** -/
theorem reach_eq {size start : Nat} (hnext : ∀ i < size, ∀ j ∈ next i, j < size)
    (hstart : start < size) :
    ∃ marks, reach size next start = .ok marks ∧ marks.size = size ∧
      ∀ i : Nat, marks[i]? = some true ↔ Reaches next start i := by
  obtain ⟨marks, heq, h⟩ := spread_eq next (Array.replicate size false) [start]
    (by simpa using hnext) (by simpa using hstart)
  have hfresh : ∀ i : Nat, (Array.replicate size false)[i]? ≠ some true := by
    intro i hi
    simp [Array.getElem?_replicate] at hi
  refine ⟨marks, heq, by simpa using h.size_eq, fun i => ⟨fun hi => ?_, fun hi => ?_⟩⟩
  · obtain ⟨p, hp, hreach⟩ := (h.sound i hi).resolve_left (hfresh i)
    obtain rfl : p = start := by simpa using hp
    exact hreach
  · refine hi.preserves (P := fun x => marks[x]? = some true) (h.visited start (by simp)) ?_
    exact fun x hx => (h.closed x hx).resolve_left (hfresh x)

end BytecodeFlow
