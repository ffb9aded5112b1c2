import Mathlib.Algebra.Group.Nat.Defs
import Mathlib.Order.Bounds.Defs

/-!
# Smearing the bits of a number

`x ||| x >>> m` sets what is `m` bits below a bit of `x` as well.  After shifts by 1, 2, 4, …
every bit has spread over a window; the numbers that become `2 ^ k - 1` are those in which no
window below the leading bit is empty.

* `Spread n x y`: every bit of `x` has spread over the `n` bits down from it, to `y`.
* `Dense n x`: one of any `n` bits of `x` is set, down from the leading bit.

    Spread n x y → m ≤ n → Spread (n + m) x (y ||| y >>> m)            (Spread.or_shiftRight)
    Spread n x y → ((y + 1).isPowerOfTwo ↔ Dense n x)                  (Spread.isPowerOfTwo_succ_iff)
-/

namespace Smear

variable {m n k x y : Nat}

def Spread (n x y : Nat) : Prop := ∀ i, y.testBit i = true ↔ ∃ d < n, x.testBit (i + d) = true

def Dense (n x : Nat) : Prop := ∀ j, 2 ^ j ≤ x → x / 2 ^ j % 2 ^ n ≠ 0

theorem spread_one (x : Nat) : Spread 1 x x := by
  intro i
  constructor
  · intro h
    exact ⟨0, by omega, h⟩
  · rintro ⟨d, hd, h⟩
    obtain rfl : d = 0 := by omega
    exact h

theorem Spread.or_shiftRight (h : Spread n x y) (hm : m ≤ n) :
    Spread (n + m) x (y ||| y >>> m) := by
  intro i
  rw [Nat.testBit_or, Nat.testBit_shiftRight, Bool.or_eq_true, h i, h (m + i)]
  constructor
  · rintro (⟨d, hd, hbit⟩ | ⟨d, hd, hbit⟩)
    · exact ⟨d, by omega, hbit⟩
    · exact ⟨m + d, by omega, by rwa [show i + (m + d) = m + i + d by omega]⟩
  · rintro ⟨d, hd, hbit⟩
    by_cases hdn : d < n
    · exact Or.inl ⟨d, hdn, hbit⟩
    · refine Or.inr ⟨d - m, by omega, ?_⟩
      rwa [show m + i + (d - m) = i + d by omega]

/-- A window is not empty if one of its bits is set. -/
theorem window_ne_zero_iff (n x j : Nat) :
    x / 2 ^ j % 2 ^ n ≠ 0 ↔ ∃ d < n, x.testBit (j + d) = true := by
  have hbit : ∀ d, (x / 2 ^ j % 2 ^ n).testBit d = (decide (d < n) && x.testBit (j + d)) := by
    intro d
    rw [Nat.testBit_mod_two_pow, Nat.testBit_div_two_pow, Nat.add_comm d j]
  constructor
  · intro h
    obtain ⟨d, hd⟩ := Nat.exists_testBit_of_ne_zero h
    rw [hbit, Bool.and_eq_true, decide_eq_true_eq] at hd
    exact ⟨d, hd⟩
  · rintro ⟨d, hd, hset⟩ h0
    have := hbit d
    rw [h0, Nat.zero_testBit, hset, decide_eq_true hd] at this
    cases this

theorem testBit_le_log2 {i : Nat} (h : x.testBit i = true) : i ≤ x.log2 := by
  have hle : 2 ^ i ≤ x := Nat.ge_two_pow_of_testBit h
  have hx : x ≠ 0 := by
    have := Nat.two_pow_pos i
    omega
  exact (Nat.le_log2 hx).mpr hle

/-- The leading bit stays the leading bit. -/
theorem Spread.lt (h : Spread n x y) : y < 2 ^ (x.log2 + 1) := by
  refine Nat.lt_pow_two_of_testBit y fun i hi => ?_
  refine Bool.eq_false_iff.mpr fun hset => ?_
  obtain ⟨d, -, hbit⟩ := (h i).mp hset
  have := testBit_le_log2 hbit
  omega

theorem Spread.le (h : Spread n x y) (hn : 0 < n) (hx : x ≠ 0) : 2 ^ x.log2 ≤ y :=
  Nat.ge_two_pow_of_testBit ((h x.log2).mpr ⟨0, hn, Nat.testBit_log2 hx⟩)

theorem Spread.eq_iff (h : Spread n x y) (hx : x ≠ 0) :
    y + 1 = 2 ^ (x.log2 + 1) ↔ Dense n x := by
  constructor
  · intro hy j hj
    rw [window_ne_zero_iff, ← h j, show y = 2 ^ (x.log2 + 1) - 1 by omega,
      Nat.testBit_two_pow_sub_one, decide_eq_true_eq]
    have := (Nat.le_log2 hx).mpr hj
    omega
  · intro hdense
    have hpred : y = 2 ^ (x.log2 + 1) - 1 := by
      refine Nat.eq_of_testBit_eq fun i => ?_
      rw [Nat.testBit_two_pow_sub_one, Bool.eq_iff_iff, decide_eq_true_eq, h i]
      constructor
      · rintro ⟨d, -, hbit⟩
        have := testBit_le_log2 hbit
        omega
      · intro hi
        have hj : 2 ^ i ≤ x := (Nat.le_log2 hx).mp (by omega)
        exact (window_ne_zero_iff n x i).mp (hdense i hj)
    have := Nat.two_pow_pos (x.log2 + 1)
    omega

/-- With an empty window the successor is between two powers of two. -/
theorem Spread.isPowerOfTwo_succ_iff (h : Spread n x y) (hn : 0 < n) (hx : x ≠ 0) :
    (y + 1).isPowerOfTwo ↔ Dense n x := by
  rw [← h.eq_iff hx]
  constructor
  · rintro ⟨k, hk⟩
    have hlt := h.lt
    have hle := h.le hn hx
    have hlog : x.log2 < k := (Nat.pow_lt_pow_iff_right (by decide : 1 < 2)).mp (by omega)
    have hpow : 2 ^ (x.log2 + 1) ≤ 2 ^ k := Nat.pow_le_pow_right (by decide) hlog
    omega
  · intro hy
    exact ⟨x.log2 + 1, hy⟩

/-- Above `n` bits the leading bit is in every window but the last one. -/
theorem dense_of_lt (hlt : x < 2 ^ (n + 1)) (hpow : ¬x.isPowerOfTwo) : Dense n x := by
  intro j hj
  cases j with
  | zero =>
    rw [Nat.pow_zero, Nat.div_one]
    intro h0
    obtain ⟨q, rfl⟩ := Nat.dvd_of_mod_eq_zero h0
    have hq : q < 2 := by
      rw [Nat.pow_succ] at hlt
      exact Nat.lt_of_mul_lt_mul_left hlt
    obtain rfl | rfl : q = 0 ∨ q = 1 := by omega
    · simp at hj
    · exact hpow ⟨n, Nat.mul_one _⟩
  | succ j =>
    have hpos : 0 < x / 2 ^ (j + 1) := Nat.div_pos hj (Nat.two_pow_pos _)
    have hsmall : x / 2 ^ (j + 1) < 2 ^ n := by
      rw [Nat.div_lt_iff_lt_mul (Nat.two_pow_pos _), Nat.pow_succ, Nat.mul_comm (2 ^ j), ← Nat.mul_assoc,
        ← Nat.pow_succ]
      exact Nat.lt_of_lt_of_le hlt (Nat.le_mul_of_pos_right _ (Nat.two_pow_pos j))
    rw [Nat.mod_eq_of_lt hsmall]
    omega

/-! ## Powers of two -/

theorem isLeast_two_pow (hlt : 2 ^ k < x) (hle : x ≤ 2 ^ (k + 1)) :
    IsLeast {p : Nat | p.isPowerOfTwo ∧ x ≤ p} (2 ^ (k + 1)) := by
  refine ⟨⟨⟨k + 1, rfl⟩, hle⟩, ?_⟩
  rintro _ ⟨⟨j, rfl⟩, hj⟩
  have : k < j := (Nat.pow_lt_pow_iff_right (by decide : 1 < 2)).mp (by omega)
  exact Nat.pow_le_pow_right (by decide) this

theorem isLeast_self (h : x.isPowerOfTwo) : IsLeast {p : Nat | p.isPowerOfTwo ∧ x ≤ p} x :=
  ⟨⟨h, Nat.le_refl x⟩, fun _ hp => hp.2⟩

end Smear
