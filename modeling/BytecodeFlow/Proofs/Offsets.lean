import Mathlib
import BytecodeFlow.CodeIndex
import BytecodeFlow.Proofs.Edges

/-!
# Offsets and positions

In a list whose offsets ascend, an offset stands for one position at most.  This file shows that the
two ways to find it agree with each other, and what a graph inherits from such a list.

**Halving.**  `Search.position?` drops half of a range at a time.  In an ascending list the key that is
wanted is never in the half that is dropped (`Search.narrow_eq`), so it is found exactly if it is
there (`Search.position?_eq_some_iff`).

**A table.**  `CodeIndex.lastPositions` enters the positions one after the other.  Where no offset
occurs twice it holds them all (`getElem?_lastPositions_iff`).

**Graphs.**  A graph is built exactly if there are instructions and they ascend
(`Graph.build_eq_ok_iff`), and then no slot leads out of it (`Graph.closed_of_build`).
-/

namespace BytecodeFlow

/-! ## Halving -/

/-- Whether the keys of a list ascend, so that none occurs twice. -/
def Ascending {α : Type} (key : α → Nat) (items : Array α) : Prop :=
  items.toList.Pairwise fun a b => key a < key b

namespace Ascending

variable {α : Type} {key : α → Nat} {items : Array α} {a b : α} {m n : Nat}

lemma lt_of_lt (h : Ascending key items) (hmn : m < n) (ha : items[m]? = some a)
    (hb : items[n]? = some b) : key a < key b := by
  obtain ⟨hm, rfl⟩ := Array.getElem?_eq_some_iff.mp ha
  obtain ⟨hn, rfl⟩ := Array.getElem?_eq_some_iff.mp hb
  exact List.pairwise_iff_getElem.mp h m n hm hn hmn

lemma le_iff (h : Ascending key items) (ha : items[m]? = some a) (hb : items[n]? = some b) :
    key a ≤ key b ↔ m ≤ n := by
  rcases Nat.lt_trichotomy m n with hlt | rfl | hgt
  · have := h.lt_of_lt hlt ha hb
    omega
  · obtain rfl : a = b := by simpa [ha] using hb
    simp
  · have := h.lt_of_lt hgt hb ha
    omega

lemma eq_of_key_eq (h : Ascending key items) (ha : items[m]? = some a) (hb : items[n]? = some b)
    (hkey : key a = key b) : m = n :=
  Nat.le_antisymm ((h.le_iff ha hb).mp hkey.le) ((h.le_iff hb ha).mp hkey.ge)

end Ascending

namespace Search

variable {α : Type} {items : Array α} {key : α → Nat} {wanted base size k : Nat} {item : α}

/-- **The half that is dropped never holds the key that is wanted.** -/
lemma narrow_eq (h : Ascending key items) (hbound : base + size ≤ items.size) (hlow : base ≤ k)
    (hhigh : k < base + size) (hitem : items[k]? = some item) (hkey : key item = wanted) :
    narrow items key wanted base size = k := by
  fun_induction narrow items key wanted base size with
  | case1 base size hsize => omega
  | case2 base size hsize half middle other hother hless ih =>
      have hlt : k < middle := by
        by_contra hge
        have := (h.le_iff hother hitem).mpr (Nat.not_lt.mp hge)
        omega
      exact ih (by omega) hlow (by omega)
  | case3 base size hsize half middle other hother hless ih =>
      have hge : middle ≤ k := by
        by_contra hlt
        have := h.lt_of_lt (Nat.not_le.mp hlt) hitem hother
        omega
      exact ih (by omega) hge (by omega)
  | case4 base size hsize half middle hnone =>
      rw [Array.getElem?_eq_none_iff] at hnone
      omega

/-- **The key that is wanted is found exactly where it stands.** -/
lemma position?_eq_some_iff (h : Ascending key items) :
    position? items key wanted = some k ↔ ∃ item, items[k]? = some item ∧ key item = wanted := by
  constructor
  · intro hfound
    simp only [position?] at hfound
    split at hfound
    · rename_i item hitem
      split_ifs at hfound with hkey
      exact ⟨item, Option.some.inj hfound ▸ hitem, hkey⟩
    · cases hfound
  · rintro ⟨item, hitem, hkey⟩
    obtain ⟨hlt, _⟩ := Array.getElem?_eq_some_iff.mp hitem
    have hnarrow := narrow_eq h (Nat.le_of_eq (Nat.zero_add _)) (Nat.zero_le k) (by omega) hitem hkey
    simp only [position?, hnarrow, hitem, hkey, if_true]

lemma isSome_position?_iff (h : Ascending key items) :
    (position? items key wanted).isSome = true ↔ ∃ item ∈ items, key item = wanted := by
  simp only [Option.isSome_iff_exists, position?_eq_some_iff h, Array.mem_iff_getElem?]
  constructor
  · rintro ⟨k, item, hitem, hkey⟩
    exact ⟨item, ⟨k, hitem⟩, hkey⟩
  · rintro ⟨item, ⟨k, hitem⟩, hkey⟩
    exact ⟨k, item, hitem, hkey⟩

end Search

/-! ## A table of offsets -/

/-- **The table holds the position of every offset**, where none occurs twice. -/
lemma getElem?_lastPositions_iff {instructions : Array Instruction} {offset k : Nat}
    (h : Ascending Instruction.offset instructions) :
    (CodeIndex.lastPositions instructions)[offset]? = some k ↔
      ∃ i, instructions[k]? = some i ∧ i.offset = offset := by
  obtain ⟨list⟩ := instructions
  simp only [CodeIndex.lastPositions, List.getElem?_toArray]
  induction list using List.reverseRecOn with
  | nil => simp
  | append_singleton list last ih =>
      have hinit := (List.pairwise_append.mp h).1
      rw [List.zipIdx_append, List.foldl_append, List.zipIdx_singleton, List.foldl_cons,
        List.foldl_nil, Std.HashMap.getElem?_insert]
      by_cases hoffset : last.offset = offset
      · rw [if_pos (beq_iff_eq.mpr hoffset), Nat.zero_add, Option.some_inj]
        constructor
        · rintro rfl
          exact ⟨last, by simp, hoffset⟩
        · rintro ⟨i, hi, hioffset⟩
          have hlast : (list ++ [last]).toArray[list.length]? = some last := by simp
          exact h.eq_of_key_eq hlast (by simpa using hi) (hoffset.trans hioffset.symm)
      · rw [if_neg (by simpa using hoffset), ih hinit]
        rcases Nat.lt_trichotomy k list.length with hlt | rfl | hgt
        · rw [List.getElem?_append_left hlt]
        · simp [hoffset]
        · rw [List.getElem?_eq_none (by omega), List.getElem?_eq_none (by simp; omega)]

/-! ## Graphs -/

namespace Graph

lemma firstDescent?_eq_none_iff (list : List Instruction) :
    firstDescent? list = none ↔ list.Pairwise fun a b => a.offset < b.offset := by
  rw [← List.isChain_iff_pairwise]
  fun_induction firstDescent? list with
  | case1 a b rest hdescent => simp [Nat.not_lt.mpr hdescent]
  | case2 a b rest hascent ih => simp [ih, Nat.not_le.mp hascent]
  | case3 list hshort =>
      match list with
      | [] => simp
      | [a] => simp
      | a :: b :: rest => exact absurd rfl (hshort a b rest)

variable {instructions : Array Instruction} {g : Graph}

/-- **A graph is built exactly if there are instructions and they ascend.** -/
lemma build_eq_ok_iff :
    build instructions = .ok g ↔ instructions ≠ #[] ∧ Ascending Instruction.offset instructions ∧
      g = ⟨instructions.mapIdx (nodeOf instructions)⟩ := by
  rw [Ascending, ← firstDescent?_eq_none_iff, build]
  by_cases hempty : instructions = #[]
  · simp [hempty]
  · cases hdescent : firstDescent? instructions.toList with
    | none => simp [hempty, eq_comm (a := g)]
    | some pair => simp [hempty]

lemma instructions_of_build (h : build instructions = .ok g) : g.instructions = instructions := by
  obtain ⟨_, _, rfl⟩ := build_eq_ok_iff.mp h
  rw [Graph.instructions]
  refine Array.ext_getElem? fun k => ?_
  rw [Array.getElem?_map, Array.getElem?_mapIdx, Option.map_map]
  cases instructions[k]? <;> rfl

/-- The number of a node is the position of its instruction. -/
lemma getElem?_instructions (g : Graph) (id : Nat) : g.instructions[id]? = g.instruction? id := by
  rw [Graph.instructions, Array.getElem?_map, instruction?]

lemma size_of_build (h : build instructions = .ok g) : g.size = instructions.size := by
  rw [← instructions_of_build h, Graph.instructions, Array.size_map, Graph.size]

/-- **No slot of a graph that has just been built leads out of it.** -/
lemma closed_of_build (h : build instructions = .ok g) : g.Closed := by
  obtain ⟨_, hascending, rfl⟩ := build_eq_ok_iff.mp h
  intro node hnode target htarget
  obtain ⟨k, hk, rfl⟩ := Array.mem_mapIdx.mp hnode
  obtain ⟨kind, hedge⟩ := Node.mem_targets.mp htarget
  rw [size, Array.size_mapIdx]
  have hfollowing : ∀ n, (if k + 1 < instructions.size then some (k + 1) else none) = some n →
      n < instructions.size := by
    intro n hn
    split_ifs at hn with hlt
    exact Option.some.inj hn ▸ hlt
  cases kind with
  | next => exact hfollowing target hedge
  | branch =>
      simp only [Node.edge, nodeOf] at hedge
      split_ifs at hedge
      obtain ⟨offset, _, hposition⟩ := Option.bind_eq_some_iff.mp hedge
      obtain ⟨i, hi, _⟩ := (Search.position?_eq_some_iff hascending).mp hposition
      exact (Array.getElem?_eq_some_iff.mp hi).1
  | callContinuation =>
      simp only [Node.edge, nodeOf] at hedge
      split_ifs at hedge with _ hlt
      exact Option.some.inj hedge ▸ hlt

end Graph

end BytecodeFlow
