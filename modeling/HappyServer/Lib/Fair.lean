import Mathlib.Order.Basic
import Mathlib.Order.Nat

/-!
# Runs that must get somewhere

A run is a sequence of states; what a fairness assumption gives is that some index
`k ≥ n` stops a phase.

* `holds_until`: what every step of the phase keeps still holds when `S` stops it.
* `eventually_of_rank`, `eventually_of_lt`: a rank that falls phase by phase leads to the goal.
* `eventually_le`: a count that grows whenever it is behind catches up.
-/

namespace Fair

theorem holds_until {I S : Nat → Prop} (n : Nat) (hI : I n)
    (hstep : ∀ k, n ≤ k → I k → ¬S k → I (k + 1)) (hstop : ∃ k, n ≤ k ∧ S k) :
    ∃ k, n ≤ k ∧ S k ∧ I k := by
  obtain ⟨k, hk, hs⟩ := hstop
  induction hd : k - n using Nat.strongRecOn generalizing k with
  | ind d ih =>
    by_cases hfirst : ∃ j, n ≤ j ∧ j < k ∧ S j
    · obtain ⟨j, hj, hjk, hsj⟩ := hfirst
      exact ih (j - n) (by omega) j hj hsj rfl
    · -- nothing stops before `k`
      have hreach : ∀ j, n + j ≤ k → I (n + j) := by
        intro j
        induction j with
        | zero => intro _; exact hI
        | succ j ihj =>
          intro hj
          exact hstep (n + j) (by omega) (ihj (by omega)) fun h =>
            hfirst ⟨n + j, by omega, by omega, h⟩
      have := hreach (k - n) (by omega)
      rw [show n + (k - n) = k by omega] at this
      exact ⟨k, hk, hs, this⟩

/-- The rank need not be a function of the index. -/
theorem eventually_of_lt {P : Nat → Nat → Prop} {Q : Nat → Prop}
    (h : ∀ n r, P n r → ∃ k, n ≤ k ∧ (Q k ∨ ∃ r', r' < r ∧ P k r')) :
    ∀ n r, P n r → ∃ k, n ≤ k ∧ Q k := by
  intro n r hP
  induction r using Nat.strongRecOn generalizing n with
  | ind r ih =>
    obtain ⟨k, hk, hQ | ⟨r', hlt, hP'⟩⟩ := h n r hP
    · exact ⟨k, hk, hQ⟩
    · obtain ⟨j, hj, hQ⟩ := ih r' hlt k hP'
      exact ⟨j, by omega, hQ⟩

theorem eventually_of_rank {P Q : Nat → Prop} (rank : Nat → Nat)
    (h : ∀ n, P n → ∃ k, n ≤ k ∧ (Q k ∨ (P k ∧ rank k < rank n))) :
    ∀ n, P n → ∃ k, n ≤ k ∧ Q k := by
  intro n hP
  refine eventually_of_lt (P := fun n r => P n ∧ rank n = r) ?_ n (rank n) ⟨hP, rfl⟩
  rintro m r ⟨hm, rfl⟩
  obtain ⟨k, hk, hQ | ⟨hP', hlt⟩⟩ := h m hm
  · exact ⟨k, hk, .inl hQ⟩
  · exact ⟨k, hk, .inr ⟨rank k, hlt, hP', rfl⟩⟩

theorem eventually_le (count : Nat → Nat) (target : Nat)
    (h : ∀ n, count n < target → ∃ k, n ≤ k ∧ count n < count k) :
    ∀ n, ∃ k, n ≤ k ∧ target ≤ count k := by
  intro n
  by_cases hlt : count n < target
  · refine eventually_of_rank (P := fun n => count n < target) (Q := fun n => target ≤ count n)
      (fun n => target - count n) (fun n hn => ?_) n hlt
    obtain ⟨k, hk, hgrow⟩ := h n hn
    by_cases hdone : target ≤ count k
    · exact ⟨k, hk, Or.inl hdone⟩
    · exact ⟨k, hk, Or.inr ⟨by omega, by omega⟩⟩
  · exact ⟨n, Nat.le_refl n, by omega⟩

end Fair
