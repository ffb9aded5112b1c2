import Mathlib.Algebra.Group.Nat.Defs

/-!
# Little-endian words

* `bytesOf w n`: the low `w` bytes of `n`, the lowest first.
* `ofBytes bs`: the number whose bytes are `bs`.

    ofBytes (bytesOf w n) = n % 256 ^ w                            (ofBytes_bytesOf)
-/

namespace LittleEndian

def bytesOf : Nat → Nat → List UInt8
  | 0, _ => []
  | w + 1, n => UInt8.ofNat n :: bytesOf w (n / 256)

def ofBytes : List UInt8 → Nat
  | [] => 0
  | b :: bs => b.toNat + 256 * ofBytes bs

@[simp] theorem length_bytesOf (w n : Nat) : (bytesOf w n).length = w := by
  induction w generalizing n with
  | zero => rfl
  | succ w ih => rw [bytesOf, List.length_cons, ih]

theorem ofBytes_lt (bs : List UInt8) : ofBytes bs < 256 ^ bs.length := by
  induction bs with
  | nil => exact Nat.one_pos
  | cons b bs ih =>
    have hb : b.toNat < 256 := b.toNat_lt
    rw [ofBytes, List.length_cons, pow_succ]
    omega

theorem ofBytes_bytesOf (w n : Nat) : ofBytes (bytesOf w n) = n % 256 ^ w := by
  induction w generalizing n with
  | zero => rw [pow_zero, Nat.mod_one]; rfl
  | succ w ih =>
    have hb : (UInt8.ofNat n).toNat = n % 256 := UInt8.toNat_ofNat'
    rw [bytesOf, ofBytes, ih, hb, pow_succ, Nat.mul_comm (256 ^ w), Nat.mod_mul]

theorem ofBytes_bytesOf_of_lt {w n : Nat} (h : n < 256 ^ w) : ofBytes (bytesOf w n) = n := by
  rw [ofBytes_bytesOf, Nat.mod_eq_of_lt h]

end LittleEndian
