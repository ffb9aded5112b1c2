import Mathlib.Algebra.BigOperators.Fin
import Mathlib.Algebra.Order.BigOperators.Group.Finset
import Mathlib.Data.Fintype.BigOperators

/-!
# How many threads are at a place

`tally p pc`: how many of finitely many threads have `p` of their program point.
-/

def tally {ι β : Type} [Fintype ι] (p : β → Bool) (pc : ι → β) : Nat :=
  ∑ i, (p (pc i)).toNat

section

variable {ι β : Type} [Fintype ι] {p : β → Bool} {pc : ι → β} {i j : ι}

theorem tally_le_card : tally p pc ≤ Fintype.card ι := by
  have h : ∀ i ∈ Finset.univ, (p (pc i)).toNat ≤ 1 := fun i _ => Bool.toNat_le _
  simpa [tally] using Finset.sum_le_card_nsmul Finset.univ _ 1 h

theorem tally_eq_zero : tally p pc = 0 ↔ ∀ i, p (pc i) = false := by
  simp [tally, Finset.sum_eq_zero_iff]

@[simp] theorem tally_const (b : β) : tally p (fun _ : ι => b) = Fintype.card ι * (p b).toNat := by
  simp [tally]

theorem tally_lt_card (hi : p (pc i) = false) : tally p pc < Fintype.card ι := by
  have hlt : tally p pc < ∑ _j : ι, 1 :=
    Finset.sum_lt_sum (fun j _ => Bool.toNat_le _) ⟨i, Finset.mem_univ i, by simp [hi]⟩
  simpa using hlt

variable [DecidableEq ι]

/-- When one thread moves, only its own share of a sum changes. -/
theorem sum_update_add {M : Type} [AddCommMonoid M] (weight : β → M) (pc : ι → β) (i : ι) (b : β) :
    (∑ j, weight (Function.update pc i b j)) + weight (pc i) = (∑ j, weight (pc j)) + weight b := by
  have hnew : (∑ j, weight (Function.update pc i b j))
      = weight b + ∑ j ∈ Finset.univ.erase i, weight (pc j) := by
    rw [← Finset.add_sum_erase _ _ (Finset.mem_univ i), Function.update_self]
    congr 1
    refine Finset.sum_congr rfl fun j hj => ?_
    rw [Function.update_of_ne (Finset.ne_of_mem_erase hj)]
  have hold : (∑ j, weight (pc j)) = weight (pc i) + ∑ j ∈ Finset.univ.erase i, weight (pc j) :=
    (Finset.add_sum_erase _ _ (Finset.mem_univ i)).symm
  rw [hnew, hold, add_assoc, add_comm _ (weight (pc i)), add_comm]

theorem tally_update (p : β → Bool) (pc : ι → β) (i : ι) (b : β) :
    tally p (Function.update pc i b) + (p (pc i)).toNat = tally p pc + (p b).toNat :=
  sum_update_add (fun b => (p b).toNat) pc i b

/-- A tally of at most 1 has one thread. -/
theorem eq_of_tally_le_one (h : tally p pc ≤ 1) (hi : p (pc i)) (hj : p (pc j)) : i = j := by
  by_contra hne
  have htwo : ∑ k ∈ {i, j}, (p (pc k)).toNat ≤ tally p pc :=
    Finset.sum_le_sum_of_subset (Finset.subset_univ _)
  rw [Finset.sum_pair hne, hi, hj] at htwo
  simp only [Bool.toNat_true] at htwo
  omega

end
