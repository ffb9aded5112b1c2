import Mathlib.Algebra.BigOperators.Group.Finset.Basic
import Mathlib.Data.Multiset.MapFold

/-!
# Rotating slots

`B` slots are visited round and round, one after the other; after `c` visits the
next slot is `c % B`.

* `visit B c j`: the number of the next visit to slot `j`, counted from the start
  (`visit_of_window`: the only `v` in `[c, c + B)` with `v % B = j`).
* `gather F f`: everything the slots `f` hold, as one multiset, each slot's list
  read by `F` (`gather_update`: what changing one slot does to it).
-/

namespace Rotation

variable {B : Nat}

/-- The first visit numbered `≥ c` that goes to slot `j`. -/
def visit (B c j : Nat) : Nat := c + (j + B - c % B) % B

theorem le_visit (c j : Nat) : c ≤ visit B c j := Nat.le_add_right _ _

theorem visit_lt (hB : 0 < B) (c j : Nat) : visit B c j < c + B :=
  Nat.add_lt_add_left (Nat.mod_lt _ hB) c

/-- **Windows.**  A visit in the next round is the next visit to its slot. -/
theorem visit_of_window (c v : Nat) (h1 : c ≤ v) (h2 : v < c + B) : visit B c (v % B) = v := by
  obtain ⟨d, rfl⟩ := Nat.exists_eq_add_of_le h1
  have hd : d < B := by omega
  have hc : c % B < B := Nat.mod_lt _ (by omega)
  have hmod : (c + d) % B = (c % B + d) % B := by rw [Nat.mod_add_mod]
  unfold visit
  rw [hmod]
  congr 1
  rcases Nat.lt_or_ge (c % B + d) B with h | h
  · rw [Nat.mod_eq_of_lt h, show c % B + d + B - c % B = d + B by omega, Nat.add_mod_right,
      Nat.mod_eq_of_lt hd]
  · rw [Nat.mod_eq_sub_mod h, Nat.mod_eq_of_lt (show c % B + d - B < B by omega),
      show c % B + d - B + B - c % B = d by omega, Nat.mod_eq_of_lt hd]

theorem visit_mod (c j : Nat) (hj : j < B) : visit B c j % B = j := by
  have hc : c % B < B := Nat.mod_lt _ (by omega)
  unfold visit
  rw [Nat.add_mod_mod, ← Nat.mod_add_mod, show c % B + (j + B - c % B) = j + B by omega,
    Nat.add_mod_right, Nat.mod_eq_of_lt hj]

theorem visit_self (hB : 0 < B) (c : Nat) : visit B c (c % B) = c :=
  visit_of_window c c (Nat.le_refl c) (by omega)

theorem visit_eq_self_iff (hB : 0 < B) (c j : Nat) (hj : j < B) : visit B c j = c ↔ j = c % B := by
  constructor
  · intro h
    rw [← visit_mod c j hj, h]
  · rintro rfl
    exact visit_self hB c

/-- Visiting slot `c % B` moves no other slot's next visit. -/
theorem visit_succ (hB : 0 < B) (c j : Nat) (hj : j < B) (hne : j ≠ c % B) :
    visit B (c + 1) j = visit B c j := by
  have h1 := le_visit (B := B) c j
  have h2 := visit_lt hB c j
  have h3 : visit B c j ≠ c := fun h => hne ((visit_eq_self_iff hB c j hj).mp h)
  have := visit_of_window (B := B) (c + 1) (visit B c j) (by omega) (by omega)
  rwa [visit_mod c j hj] at this

/-- Within the round that begins at `c`, slot `j` is visited `j` after `c`. -/
theorem visit_of_dvd (c j : Nat) (hj : j < B) (hc : c % B = 0) : visit B c j = c + j := by
  unfold visit
  rw [hc, Nat.sub_zero, Nat.add_mod_right, Nat.mod_eq_of_lt hj]

/-! ## The content of all slots -/

variable {α β : Type}

/-- The content of slots `0 … B - 1`, slot `j` read by `F j`. -/
def gather (B : Nat) (F : Nat → List α → Multiset β) (f : Nat → List α) : Multiset β :=
  ∑ j ∈ Finset.range B, F j (f j)

/-- **Frame.**  Changing slot `j` trades what `F j` read there for what it reads now. -/
theorem gather_update (F : Nat → List α → Multiset β) (f : Nat → List α) (j : Nat) (l : List α)
    (hj : j < B) :
    gather B F (Function.update f j l) + F j (f j) = gather B F f + F j l := by
  have hmem : j ∈ Finset.range B := Finset.mem_range.mpr hj
  unfold gather
  rw [← Finset.sum_erase_add _ _ hmem, ← Finset.sum_erase_add (Finset.range B) (fun j => F j (f j)) hmem]
  have hrest : ∑ i ∈ (Finset.range B).erase j, F i (Function.update f j l i)
      = ∑ i ∈ (Finset.range B).erase j, F i (f i) := by
    apply Finset.sum_congr rfl
    intro i hi
    rw [Function.update_of_ne (Finset.ne_of_mem_erase hi)]
  rw [hrest, Function.update_self, add_right_comm]

theorem gather_congr (F G : Nat → List α → Multiset β) (f : Nat → List α)
    (h : ∀ j, j < B → F j (f j) = G j (f j)) : gather B F f = gather B G f :=
  Finset.sum_congr rfl fun j hj => h j (Finset.mem_range.mp hj)

theorem mem_gather (F : Nat → List α → Multiset β) (f : Nat → List α) (x : β) :
    x ∈ gather B F f ↔ ∃ j, j < B ∧ x ∈ F j (f j) := by
  unfold gather
  rw [Multiset.mem_sum]
  simp only [Finset.mem_range]

theorem gather_nil (F : Nat → List α → Multiset β) (hF : ∀ j, F j [] = 0) :
    gather B F (fun _ => []) = 0 := by
  unfold gather
  simp [hF]

theorem map_gather {γ : Type} (g : β → γ) (F : Nat → List α → Multiset β) (f : Nat → List α) :
    Multiset.map g (gather B F f) = gather B (fun j l => Multiset.map g (F j l)) f :=
  map_sum (Multiset.mapAddMonoidHom g) _ _

end Rotation
