import Mathlib.Data.Int.Basic
import Mathlib.Tactic.Ring

/-!
# Machine words as integers

A word is the integer it stands for; a conversion that may lose bits is a function.

* `i32 x`, `i64 x`: the signed word of 32 (64) bits congruent to `x`.
* `u32 x`, `u64 x`: the unsigned word of 32 (64) bits congruent to `x`.
* `add64`, `sub64`: unsigned 64-bit addition and subtraction.
-/

namespace Word

def i32 (x : Int) : Int := (x + 2 ^ 31) % 2 ^ 32 - 2 ^ 31

def i64 (x : Int) : Int := (x + 2 ^ 63) % 2 ^ 64 - 2 ^ 63

def u32 (x : Int) : Nat := (x % 2 ^ 32).toNat

def u64 (x : Int) : Nat := (x % 2 ^ 64).toNat

def add64 (a b : Nat) : Nat := (a + b) % 2 ^ 64

def sub64 (a b : Nat) : Nat := (a + (2 ^ 64 - b)) % 2 ^ 64

theorem i32_of_range (x : Int) (h1 : -2 ^ 31 ≤ x) (h2 : x < 2 ^ 31) : i32 x = x := by
  unfold i32; omega

theorem i32_eq_self_iff (x : Int) : i32 x = x ↔ -2 ^ 31 ≤ x ∧ x < 2 ^ 31 := by
  unfold i32; omega

theorem i32_range (x : Int) : -2 ^ 31 ≤ i32 x ∧ i32 x < 2 ^ 31 := by
  unfold i32; omega

theorem i32_le_of_nonneg (x : Int) (h : 0 ≤ x) : i32 x ≤ x := by
  unfold i32; omega

theorem i32_u32 (x : Int) : i32 (u32 x) = i32 x := by
  unfold i32 u32; omega

theorem u32_lt (x : Int) : u32 x < 2 ^ 32 := by
  unfold u32; omega

theorem i64_u64 (x : Int) : i64 (u64 x) = i64 x := by
  unfold i64 u64; omega

theorem i64_of_range (x : Int) (h1 : -2 ^ 63 ≤ x) (h2 : x < 2 ^ 63) : i64 x = x := by
  unfold i64; omega

theorem u64_of_range (x : Int) (h1 : 0 ≤ x) (h2 : x < 2 ^ 64) : (u64 x : Int) = x := by
  unfold u64; omega

theorem u64_lt (x : Int) : u64 x < 2 ^ 64 := by
  unfold u64; omega

theorem add64_of_lt (a b : Nat) (h : a + b < 2 ^ 64) : add64 a b = a + b :=
  Nat.mod_eq_of_lt h

theorem add64_add64 (a b c : Nat) : add64 (add64 a b) c = add64 a (b + c) := by
  unfold add64; omega

theorem add64_inj {a b c : Nat} (hb : b < 2 ^ 64) (hc : c < 2 ^ 64) (h : add64 a b = add64 a c) :
    b = c := by
  unfold add64 at h; omega

theorem sub64_of_le (a b : Nat) (hb : b ≤ a) (ha : a < 2 ^ 64) : sub64 a b = a - b := by
  unfold sub64; omega

end Word
