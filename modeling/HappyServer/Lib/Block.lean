import Mathlib.Data.List.Basic

/-!
# Blocks of memory

A block is the list of its cells.  Loading or storing outside a block is an error (`none`).

* `load block pos n`: the `n` cells from `pos`.
* `store block pos cells`: `block` with `cells` from `pos` on.

    store block pos cells = some block' → load block' pos cells.length = some cells   (load_store)
    … → pos' + n ≤ pos → load block' pos' n = load block pos' n                       (load_store_below)
    … → pos + cells.length ≤ pos' → load block' pos' n = load block pos' n            (load_store_above)
    load block pos (m + n) = some cells ↔ cells = front ++ back for the loads of m and n   (load_add)
-/

namespace Block

variable {α : Type} {block block' cells : List α} {pos pos' m n : Nat}

def load (block : List α) (pos n : Nat) : Option (List α) :=
  if pos + n ≤ block.length then some ((block.drop pos).take n) else none

def store (block : List α) (pos : Nat) (cells : List α) : Option (List α) :=
  if pos + cells.length ≤ block.length then
    some (block.take pos ++ cells ++ block.drop (pos + cells.length))
  else none

theorem load_of_le (h : pos + n ≤ block.length) : load block pos n = some ((block.drop pos).take n) :=
  if_pos h

theorem store_of_le (h : pos + cells.length ≤ block.length) :
    store block pos cells = some (block.take pos ++ cells ++ block.drop (pos + cells.length)) :=
  if_pos h

theorem load_some (h : load block pos n = some cells) :
    pos + n ≤ block.length ∧ cells = (block.drop pos).take n := by
  unfold load at h
  split at h
  next hle => exact ⟨hle, (Option.some.inj h).symm⟩
  · cases h

theorem store_some (h : store block pos cells = some block') :
    pos + cells.length ≤ block.length ∧
      block' = block.take pos ++ cells ++ block.drop (pos + cells.length) := by
  unfold store at h
  split at h
  next hle => exact ⟨hle, (Option.some.inj h).symm⟩
  · cases h

theorem load_zero (h : pos ≤ block.length) : load block pos 0 = some [] := by
  rw [load_of_le (by omega), List.take_zero]

theorem length_load (h : load block pos n = some cells) : cells.length = n := by
  obtain ⟨hle, rfl⟩ := load_some h
  rw [List.length_take, List.length_drop]
  omega

theorem length_store (h : store block pos cells = some block') : block'.length = block.length := by
  obtain ⟨hle, rfl⟩ := store_some h
  simp only [List.length_append, List.length_take, List.length_drop]
  omega

/-! ## Loads of one block -/

/-- A load is the loads of its two parts. -/
theorem load_add {front back : List α} (hfront : load block pos m = some front)
    (hback : load block (pos + m) n = some back) : load block pos (m + n) = some (front ++ back) := by
  obtain ⟨-, rfl⟩ := load_some hfront
  obtain ⟨hle, rfl⟩ := load_some hback
  rw [load_of_le (by omega), List.take_add, List.drop_drop]

theorem load_front (h : load block pos (m + n) = some cells) :
    load block pos m = some (cells.take m) := by
  obtain ⟨hle, rfl⟩ := load_some h
  rw [load_of_le (by omega), List.take_take, Nat.min_eq_left (by omega)]

theorem load_back (h : load block pos (m + n) = some cells) :
    load block (pos + m) n = some (cells.drop m) := by
  obtain ⟨hle, rfl⟩ := load_some h
  rw [load_of_le (by omega), List.drop_take, List.drop_drop, Nat.add_sub_cancel_left]

/-! ## Loads after a store -/

theorem load_store (h : store block pos cells = some block') :
    load block' pos cells.length = some cells := by
  have hlen := length_store h
  obtain ⟨hle, rfl⟩ := store_some h
  rw [load_of_le (by omega), List.append_assoc, List.drop_append_of_le_length (by
    rw [List.length_take]; omega), List.drop_eq_nil_of_le (by rw [List.length_take]; omega),
    List.nil_append, List.take_left]

theorem load_store_below (h : store block pos cells = some block') (hle : pos' + n ≤ pos) :
    load block' pos' n = load block pos' n := by
  have hlen := length_store h
  obtain ⟨hpos, rfl⟩ := store_some h
  rw [load_of_le (by omega), load_of_le (by omega), List.append_assoc, List.drop_append_of_le_length (by
    rw [List.length_take]; omega), List.take_append_of_le_length (by
    rw [List.length_drop, List.length_take]; omega), List.drop_take, List.take_take,
    Nat.min_eq_left (by omega)]

theorem load_store_above (h : store block pos cells = some block') (hle : pos + cells.length ≤ pos') :
    load block' pos' n = load block pos' n := by
  have hlen := length_store h
  obtain ⟨hpos, rfl⟩ := store_some h
  have hfront : (block.take pos ++ cells).length = pos + cells.length := by
    rw [List.length_append, List.length_take]
    omega
  unfold load
  rw [hlen, List.drop_append, hfront, List.drop_eq_nil_of_le (by omega), List.nil_append,
    List.drop_drop, show pos + cells.length + (pos' - (pos + cells.length)) = pos' by omega]

end Block
