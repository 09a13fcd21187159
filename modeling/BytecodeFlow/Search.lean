/-!
# Searching by halving

A list that ascends by some key is searched by halving the range in which the key can stand.  The
search asks only whether a key is greater than the one wanted, and looks for equality once, at the
end; on a list that does not ascend it may therefore miss a key that is there.

* `narrow` — the last step of the halving: the only position at which the key can be.
* `position?` — that position, if the key is there.
-/

namespace BytecodeFlow.Search

/-- The position that is left of the `size` positions from `base` on, when the half that cannot
hold the key is dropped until one is left. -/
def narrow {α : Type} (items : Array α) (key : α → Nat) (wanted base size : Nat) : Nat :=
  if size ≤ 1 then base
  else
    let half := size / 2
    let middle := base + half
    match items[middle]? with
    | some item =>
      if wanted < key item then narrow items key wanted base (size - half)
      else narrow items key wanted middle (size - half)
    | none => base
termination_by size

/-- **The position of the item with a given key**, in a list that ascends by its keys. -/
def position? {α : Type} (items : Array α) (key : α → Nat) (wanted : Nat) : Option Nat :=
  let candidate := narrow items key wanted 0 items.size
  match items[candidate]? with
  | some item => if key item = wanted then some candidate else none
  | none => none

end BytecodeFlow.Search
