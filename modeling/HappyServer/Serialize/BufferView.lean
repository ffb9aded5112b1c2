import Mathlib.Data.List.Basic

/-!
# `common/buffer_view.hpp`

Bytes with a read position.  `skip` past the end also forgets where the end was.

* `rest`: the bytes that can still be read; what `read` and `skip` do is said of them.
-/

namespace HappyServer.Serialize

structure BufferView where
  data_ : List UInt8
  readpos_ : Nat
  size_ : Nat
  readpos_le : readpos_ ≤ size_
  size_le : size_ ≤ data_.length

namespace BufferView

def make (data : List UInt8) : BufferView := ⟨data, 0, data.length, Nat.zero_le _, Nat.le_refl _⟩

/-- `n` bytes as they are in memory. -/
def bytes (view : BufferView) (n : Nat) : List UInt8 := (view.data_.drop view.readpos_).take n

def read (view : BufferView) (n : Nat) : Option (List UInt8 × BufferView) :=
  if n = 0 then none
  else if h : view.readpos_ + n ≤ view.size_ then
    some (view.bytes n, { view with readpos_ := view.readpos_ + n, readpos_le := h })
  else none

def size (view : BufferView) : Nat := view.size_ - view.readpos_

def skip (view : BufferView) (len : Nat) : BufferView :=
  if h : len < view.size then
    { view with readpos_ := view.readpos_ + len, readpos_le := by unfold size at h; omega }
  else ⟨view.data_, 0, 0, Nat.le_refl 0, Nat.zero_le _⟩

def rest (view : BufferView) : List UInt8 := (view.data_.take view.size_).drop view.readpos_

@[simp] theorem rest_make (data : List UInt8) : (make data).rest = data := List.take_length

@[simp] theorem length_rest (view : BufferView) : view.rest.length = view.size := by
  unfold rest size
  rw [List.length_drop, List.length_take, Nat.min_eq_left view.size_le]

theorem bytes_eq (view : BufferView) {n : Nat} (h : n ≤ view.size) :
    view.bytes n = view.rest.take n := by
  unfold bytes rest size at *
  rw [List.drop_take, List.take_take, Nat.min_eq_left h]

theorem read_none (view : BufferView) {n : Nat} (h : view.rest.length < n) : view.read n = none := by
  rw [length_rest] at h
  have := view.readpos_le
  unfold read size at *
  rw [if_neg (by omega), dif_neg (by omega)]

theorem read_some (view : BufferView) {n : Nat} (hpos : 0 < n) (h : n ≤ view.rest.length) :
    ∃ view', view.read n = some (view.rest.take n, view') ∧ view'.rest = view.rest.drop n := by
  rw [length_rest] at h
  have hle : view.readpos_ + n ≤ view.size_ := by
    have := view.readpos_le
    unfold size at h
    omega
  refine ⟨{ view with readpos_ := view.readpos_ + n, readpos_le := hle }, ?_, ?_⟩
  · rw [read, if_neg (by omega), dif_pos hle, bytes_eq view h]
  · exact (List.drop_drop ..).symm

theorem rest_skip (view : BufferView) (len : Nat) : (view.skip len).rest = view.rest.drop len := by
  unfold skip
  by_cases h : len < view.size
  · rw [dif_pos h]
    exact (List.drop_drop ..).symm
  · rw [dif_neg h, List.drop_eq_nil_of_le (by rw [length_rest]; omega)]
    rfl

end BufferView

end HappyServer.Serialize
