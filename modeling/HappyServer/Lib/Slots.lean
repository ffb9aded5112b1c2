import Mathlib.Data.List.Basic

/-!
# A stack that is addressed from both ends

A list with its top at the end.  Index `1` is the bottom and `-1` the top, as in a stack of arguments
with relative indices.

* `get s i`, `put s i x`: the slot of index `i`.
* What lies above or below the slot does not matter (`get_append_top`, `get_append_base`).
-/

namespace Slots

variable {α : Type}

/-- The slot of index `i`, counted from the bottom, if there is one. -/
def slot (s : List α) (i : Int) : Option Nat :=
  if 0 < i then some (i.toNat - 1)
  else if i < 0 ∧ -i ≤ s.length then some (s.length - i.natAbs)
  else none

def get (s : List α) (i : Int) : Option α := (slot s i).bind fun n => s[n]?

def put (s : List α) (i : Int) (x : α) : List α :=
  match slot s i with
  | some n => s.set n x
  | none => s

def pop (s : List α) (n : Nat) : List α := s.take (s.length - n)

theorem slot_neg {s : List α} {n : Nat} (hpos : 0 < n) (h : n ≤ s.length) :
    slot s (-n) = some (s.length - n) := by
  unfold slot
  rw [if_neg (by omega), if_pos (by omega), Int.natAbs_neg, Int.natAbs_natCast]

theorem slot_append_top (base top : List α) {n : Nat} (hpos : 0 < n) (h : n ≤ top.length) :
    slot (base ++ top) (-n) = some (base.length + (top.length - n)) := by
  rw [slot_neg hpos (by rw [List.length_append]; omega), List.length_append]
  congr 1
  omega

/-- What is below does not matter to an index from the top. -/
theorem get_append_top (base top : List α) {n : Nat} (hpos : 0 < n) (h : n ≤ top.length) :
    get (base ++ top) (-n) = get top (-n) := by
  unfold get
  rw [slot_append_top base top hpos h, slot_neg hpos h]
  show (base ++ top)[base.length + (top.length - n)]? = top[top.length - n]?
  rw [List.getElem?_append_right (Nat.le_add_right _ _), Nat.add_sub_cancel_left]

theorem put_append_top (base top : List α) (x : α) {n : Nat} (hpos : 0 < n) (h : n ≤ top.length) :
    put (base ++ top) (-n) x = base ++ put top (-n) x := by
  unfold put
  rw [slot_append_top base top hpos h, slot_neg hpos h]
  dsimp only
  rw [List.set_append_right _ _ (Nat.le_add_right _ _), Nat.add_sub_cancel_left]

/-- What is above does not matter to an index from the bottom. -/
theorem get_append_base (base top : List α) {n : Nat} {x : α} (hpos : 0 < n)
    (h : get base n = some x) : get (base ++ top) n = some x := by
  unfold get slot at *
  rw [if_pos (by omega)] at *
  have hlt : (n : Int).toNat - 1 < base.length := (List.getElem?_eq_some_iff.mp h).1
  exact (List.getElem?_append_left hlt).trans h

/-- The slots are counted from one. -/
theorem get_length (base top : List α) (x : α) {n : Nat} (hn : base.length + 1 = n) :
    get (base ++ x :: top) n = some x := by
  unfold get slot
  rw [if_pos (by omega)]
  show (base ++ x :: top)[(n : Int).toNat - 1]? = some x
  rw [show (n : Int).toNat - 1 = base.length by omega, List.getElem?_append_right (Nat.le_refl _),
    Nat.sub_self]
  rfl

/-- There is no slot `0`, and none below the bottom. -/
theorem range_of_get {s : List α} {i : Int} {x : α} (h : get s i = some x) :
    0 < i ∨ i < 0 ∧ -i ≤ s.length := by
  unfold get slot at h
  by_cases hpos : 0 < i
  · exact Or.inl hpos
  · rw [if_neg hpos] at h
    by_cases hneg : i < 0 ∧ -i ≤ s.length
    · exact Or.inr hneg
    · rw [if_neg hneg] at h
      cases h

/-- An index from the top names the slot that it has from the bottom. -/
theorem get_absolute {s : List α} {i : Int} {x : α} (hneg : i < 0) (hle : -i ≤ s.length)
    (h : get s i = some x) : get s (s.length + i + 1) = some x := by
  unfold get slot at *
  rw [if_neg (by omega), if_pos ⟨hneg, hle⟩] at h
  rw [if_pos (by omega)]
  have hslot : ((s.length : Int) + i + 1).toNat - 1 = s.length - i.natAbs := by omega
  rw [hslot]
  exact h

@[simp] theorem pop_append (base top : List α) : pop (base ++ top) top.length = base := by
  unfold pop
  rw [List.length_append, Nat.add_sub_cancel, List.take_left]

end Slots
