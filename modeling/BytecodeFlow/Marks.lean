/-!
# Marks on a numbered set

Searches keep one mark for every node or byte, in an array indexed by its number, and end because
every step changes a mark that has not been changed before.  The statements here count marks of
one kind before and after such a change.
-/

namespace BytecodeFlow.Marks

variable {α : Type} [BEq α] {marks : Array α} {i : Nat} {old new : α}

/-- **Changing a mark leaves one mark less of the old kind.** -/
theorem count_set_add_one [LawfulBEq α] (h : i < marks.size) (hold : marks[i] = old)
    (hnew : new ≠ old) :
    (marks.set i new).count old + 1 = marks.count old := by
  have hpos : 0 < marks.count old := Array.count_pos_iff.mpr (hold ▸ Array.getElem_mem h)
  rw [Array.count_set]
  simp [hold, hnew]
  omega

/-- Changing a mark leaves fewer marks of the old kind, which is the measure by which searches
end. -/
theorem count_set_lt [LawfulBEq α] (h : i < marks.size) (hold : marks[i] = old)
    (hnew : new ≠ old) :
    (marks.set i new).count old < marks.count old := by
  have := count_set_add_one h hold hnew
  omega

/-- Writing a mark of another kind does not add marks of this kind. -/
theorem count_setIfInBounds_le [LawfulBEq α] (hnew : new ≠ old) :
    (marks.setIfInBounds i new).count old ≤ marks.count old := by
  unfold Array.setIfInBounds
  split
  · rw [Array.count_set]
    simp [hnew]
  · exact Nat.le_refl _

/-- Writing one mark adds one mark of any kind at most. -/
theorem count_setIfInBounds_le_add_one :
    (marks.setIfInBounds i new).count old ≤ marks.count old + 1 := by
  unfold Array.setIfInBounds
  split
  · rw [Array.count_set]
    split <;> split <;> omega
  · exact Nat.le_succ _

end BytecodeFlow.Marks
