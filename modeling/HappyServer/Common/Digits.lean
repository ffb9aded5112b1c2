import HappyServer.Lib.Word
import HappyServer.Lib.Writes

/-!
# Pairs of digits (`uint64_to_str`, `uint64_to_hexstr`)

Both functions write a number from the right, two digits at a time, which they take from a table of all
pairs.  `dst` is an address and the indices are unsigned words, so that `dst[next - 1]` is the byte
before `dst` when `next` is 0.  A run is a log of its writes.
-/

namespace HappyServer.Common.Digits

open Word Writes

abbrev Log := List (Nat × UInt8)

/-- `'0'` -/
def zero : UInt8 := 48

section

variable (digits : List UInt8)

/-- `dst[next] = digits[i + 1]; dst[next - 1] = digits[i];` -/
def writePair (dst next i : Nat) : Log :=
  [(add64 dst next, digits.getD (i + 1) 0), (add64 dst (sub64 next 1), digits.getD i 0)]

/-- The last 1-2 digits. -/
def lastDigits (dst value next : Nat) : Log :=
  if value < 10 then [(add64 dst next, zero + value.toUInt8)]
  else writePair digits dst next (value * 2)

end

/-- The pair is read from left to right. -/
theorem writePair_spells {digits : List UInt8} {dst next i : Nat} {high low : UInt8}
    (hpair : digits.getD i 0 = high ∧ digits.getD (i + 1) 0 = low) (hpos : 1 ≤ next)
    (hlt : next < 2 ^ 64) :
    Spells (fun i => add64 dst (next - 1 + i)) [high, low] (writePair digits dst next i) := by
  obtain ⟨hhigh, hlow⟩ := hpair
  unfold writePair
  rw [hhigh, hlow, sub64_of_le next 1 hpos hlt]
  have hfirst := spells_singleton (fun i => add64 dst (next - 1 + i)) high
  have hsecond := spells_singleton (fun i => add64 dst (next - 1 + (1 + i))) low
  refine (hfirst.append hsecond).congr fun w => ?_
  rw [show next - 1 + (1 + 0) = next by omega, Nat.add_zero]
  simp only [List.cons_append, List.nil_append, List.mem_cons, List.not_mem_nil, or_false]
  exact Or.comm

end HappyServer.Common.Digits
