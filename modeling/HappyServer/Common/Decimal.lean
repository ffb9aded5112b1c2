import HappyServer.Common.Digits
import HappyServer.Lib.Json
import HappyServer.Server.Message
import Mathlib.Data.Nat.Log

/-!
# `uint64_to_str` (`common/string.hpp`)

Two digits at a time are written from the right (`Digits`); a run is the length it returns and the log
of its writes.

`log10 value` stands for `static_cast<size_t>(std::log10(value))`.

* `fixed k n`: the last `k` decimal digits of `n`.
* `decimal n`: the digits of `n`.

    decimal n = fixed (Nat.log 10 n + 1) n                                      (decimal_eq_fixed)
    uint64ToStr log10 value dst returns the number of digits and leaves them    (uint64ToStr_leaves)

There is no zero to be written before a digit alone: `value < 10` is the right test here.
-/

namespace HappyServer.Common.Decimal

open Word Writes Server Digits

def digits : List UInt8 :=
  [ "0001020304050607080910111213141516171819",
    "2021222324252627282930313233343536373839",
    "4041424344454647484950515253545556575859",
    "6061626364656667686970717273747576777879",
    "8081828384858687888990919293949596979899" ].flatMap ascii

/-- `while (value >= 100)` -/
def pairLoop (dst value next : Nat) (log : Log) : Nat × Nat × Log :=
  if value ≥ 100 then
    pairLoop dst (value / 100) (sub64 next 2) (log ++ writePair digits dst next (value % 100 * 2))
  else (value, next, log)
termination_by value

def uint64ToStr (log10 : Nat → Nat) (value dst : Nat) : Nat × Log :=
  let length := add64 (log10 value) 1
  let (value, next, log) := pairLoop dst value (sub64 length 1) []
  (length, log ++ lastDigits digits dst value next)

/-! ## Digits -/

def decDigit (d : Nat) : UInt8 := zero + d.toUInt8

def fixed : Nat → Nat → List UInt8
  | 0, _ => []
  | k + 1, n => fixed k (n / 10) ++ [decDigit (n % 10)]

def decimal (n : Nat) : List UInt8 := Json.decimal n

variable {dst value next k n : Nat}

@[simp] theorem length_fixed (k n : Nat) : (fixed k n).length = k := by
  induction k generalizing n with
  | zero => rfl
  | succ k ih => rw [fixed, List.length_append, ih, List.length_singleton]

/-- The last two digits. -/
theorem fixed_pair (k n : Nat) : fixed (k + 2) n
    = fixed k (n / 100) ++ [decDigit (n % 100 / 10), decDigit (n % 100 % 10)] := by
  show (fixed k (n / 10 / 10) ++ [decDigit (n / 10 % 10)]) ++ [decDigit (n % 10)] = _
  rw [show n / 10 / 10 = n / 100 by omega, show n / 10 % 10 = n % 100 / 10 by omega,
    show n % 10 = n % 100 % 10 by omega, List.append_assoc]
  rfl

theorem fixed_add (j k n : Nat) :
    fixed (j + k) n = fixed j (n / 10 ^ k) ++ fixed k (n % 10 ^ k) := by
  induction k generalizing n with
  | zero => simp [fixed]
  | succ k ih =>
    show fixed (j + k) (n / 10) ++ [decDigit (n % 10)] = _
    rw [ih (n / 10), fixed, Nat.div_div_eq_div_mul, List.append_assoc]
    have hmod : n % 10 ^ (k + 1) / 10 = n / 10 % 10 ^ k := by
      rw [Nat.pow_succ, Nat.mul_comm, Nat.mod_mul_right_div_self]
    have hlast : n % 10 ^ (k + 1) % 10 = n % 10 :=
      Nat.mod_mod_of_dvd n (Dvd.intro_left (10 ^ k) rfl)
    rw [hmod, hlast, Nat.pow_succ, Nat.mul_comm 10]

theorem digit_char : ∀ d < 10, (Nat.digitChar d).toNat.toUInt8 = decDigit d := by
  decide

theorem decimal_eq (n : Nat) : decimal n = (Nat.toDigits 10 n).map fun c => c.toNat.toUInt8 := by
  unfold decimal Json.decimal
  rw [if_neg (by omega), List.nil_append, Int.natAbs_natCast]

theorem decimal_of_lt (h : n < 10) : decimal n = fixed 1 n := by
  rw [decimal_eq, Nat.toDigits_of_lt_base h, List.map_singleton, digit_char n h]
  show _ = [decDigit (n % 10)]
  rw [Nat.mod_eq_of_lt h]

theorem decimal_eq_fixed (n : Nat) : decimal n = fixed (Nat.log 10 n + 1) n := by
  induction n using Nat.strong_induction_on with
  | _ n ih =>
    by_cases hlt : n < 10
    · rw [decimal_of_lt hlt, Nat.log_of_lt hlt]
    · have hstep : decimal n = decimal (n / 10) ++ [decDigit (n % 10)] := by
        rw [decimal_eq, decimal_eq, Nat.toDigits_of_base_le (by decide) (by omega),
          List.map_append, List.map_singleton,
          digit_char _ (Nat.mod_lt n (by decide))]
      rw [hstep, ih (n / 10) (by omega),
        Nat.log_of_one_lt_of_le (by decide) (show 10 ≤ n by omega)]
      rfl

theorem length_decimal (n : Nat) : (decimal n).length = Nat.log 10 n + 1 := by
  rw [decimal_eq_fixed, length_fixed]

theorem length_decimal_pos (n : Nat) : 0 < (decimal n).length := by
  rw [length_decimal]
  omega

/-- Twenty digits are enough for any 64 bits. -/
theorem length_decimal_le (h : n < 2 ^ 64) : (decimal n).length ≤ 20 := by
  rw [length_decimal]
  have : Nat.log 10 n < 20 := Nat.log_lt_of_lt_pow' (by decide) (show n < 10 ^ 20 by omega)
  omega

/-- The table has the two digits of every number below 100. -/
theorem digits_pair : ∀ v < 100, digits.getD (v * 2) 0 = decDigit (v / 10) ∧
    digits.getD (v * 2 + 1) 0 = decDigit (v % 10) := by
  decide +kernel

/-! ## The loop -/

/-- One digit, or two of which the first is not 0. -/
theorem lastDigits_spells (dst : Nat) (h : value < 100) :
    Spells (add64 dst) (fixed (Nat.log 10 value + 1) value)
      (lastDigits digits dst value (Nat.log 10 value)) := by
  unfold lastDigits
  by_cases hdigit : value < 10
  · rw [if_pos hdigit, Nat.log_of_lt hdigit]
    show Spells _ [decDigit (value % 10)] _
    rw [Nat.mod_eq_of_lt hdigit]
    exact spells_singleton (add64 dst) (decDigit value)
  · have hlog : Nat.log 10 value = 1 := by
      rw [Nat.log_of_one_lt_of_le (by decide) (by omega), Nat.log_of_lt (by omega)]
    rw [if_neg hdigit, hlog, fixed_pair 0 value]
    show Spells _ [_, _] _
    rw [Nat.mod_eq_of_lt h]
    refine (writePair_spells (digits_pair value h) (Nat.le_refl 1) (by decide)).move fun i => ?_
    rw [Nat.sub_self, Nat.zero_add]

/-- The loop and the last digits, after anything. -/
theorem pairLoop_spells (dst value : Nat) : ∀ log, value < 2 ^ 64 →
    ∃ lead next written, pairLoop dst value (Nat.log 10 value) log = (lead, next, log ++ written) ∧
      Spells (add64 dst) (fixed (Nat.log 10 value + 1) value)
        (written ++ lastDigits digits dst lead next) := by
  induction value using Nat.strong_induction_on with
  | _ value ih =>
    intro log hvalue
    rw [pairLoop]
    by_cases hlarge : value ≥ 100
    · rw [if_pos hlarge]
      have hlen : Nat.log 10 value = Nat.log 10 (value / 100) + 2 := by
        rw [Nat.log_of_one_lt_of_le (by decide) (show 10 ≤ value by omega),
          Nat.log_of_one_lt_of_le (by decide) (show 10 ≤ value / 10 by omega),
          Nat.div_div_eq_div_mul]
      have hshort := length_decimal_le hvalue
      rw [length_decimal] at hshort
      have hnext : sub64 (Nat.log 10 value) 2 = Nat.log 10 (value / 100) := by
        rw [sub64_of_le _ _ (by omega) (by omega)]
        omega
      obtain ⟨lead, next, written, hloop, hspells⟩ :=
        ih (value / 100) (by omega) (log ++ writePair digits dst (Nat.log 10 value) (value % 100 * 2))
          (by omega)
      refine ⟨lead, next, writePair digits dst (Nat.log 10 value) (value % 100 * 2) ++ written, ?_, ?_⟩
      · rw [hnext, hloop, List.append_assoc]
      · have hpair : Spells
            (fun i => add64 dst ((fixed (Nat.log 10 (value / 100) + 1) (value / 100)).length + i))
            [decDigit (value % 100 / 10), decDigit (value % 100 % 10)]
            (writePair digits dst (Nat.log 10 value) (value % 100 * 2)) := by
          refine (writePair_spells (digits_pair _ (Nat.mod_lt value (by decide))) (by omega) (by omega)).move
            fun i => ?_
          rw [length_fixed, hlen]
          rfl
        rw [hlen, show Nat.log 10 (value / 100) + 2 + 1 = Nat.log 10 (value / 100) + 1 + 2 by omega,
          fixed_pair, ← hlen]
        -- the pair on the right is written first
        refine (hspells.append hpair).congr fun w => ?_
        rw [List.append_assoc, List.mem_append, List.mem_append (s := written ++ _)]
        exact Or.comm
    · rw [if_neg hlarge]
      exact ⟨value, Nat.log 10 value, [], by rw [List.append_nil],
        lastDigits_spells dst (by omega)⟩

/-! ## The whole text -/

section

variable {log10 : Nat → Nat}

theorem uint64ToStr_spells (dst : Nat) (hvalue : value < 2 ^ 64)
    (hlog : log10 value = Nat.log 10 value) :
    (uint64ToStr log10 value dst).1 = (decimal value).length ∧
      Spells (add64 dst) (decimal value) (uint64ToStr log10 value dst).2 := by
  have hshort := length_decimal_le hvalue
  rw [length_decimal] at hshort
  have hlength : add64 (log10 value) 1 = Nat.log 10 value + 1 := by
    rw [hlog, add64_of_lt _ _ (by omega)]
  obtain ⟨lead, next, written, hloop, hspells⟩ := pairLoop_spells dst value [] hvalue
  unfold uint64ToStr
  simp only [hlength, sub64_of_le _ 1 (Nat.le_add_left 1 _)
    (show Nat.log 10 value + 1 < 2 ^ 64 by omega), Nat.add_sub_cancel, hloop, List.nil_append]
  rw [length_decimal, decimal_eq_fixed]
  exact ⟨rfl, hspells⟩

theorem uint64ToStr_left (dst : Nat) (hvalue : value < 2 ^ 64)
    (hlog : log10 value = Nat.log 10 value) :
    Leaves (add64 dst) (decimal value) (uint64ToStr log10 value dst).2 := by
  have hshort := length_decimal_le hvalue
  refine (uint64ToStr_spells dst hvalue hlog).2.leaves fun i hi j hj heq => ?_
  exact add64_inj (by omega) (by omega) heq

/-- **Decimal.**  The digits, and nothing else, are written, and their number is returned.  (Of 0
there is no logarithm.) -/
theorem uint64ToStr_leaves (log10 : Nat → Nat) (value dst : UInt64)
    (hlog : log10 value.toNat = Nat.log 10 value.toNat) :
    (uint64ToStr log10 value.toNat dst.toNat).1 = (decimal value.toNat).length ∧
      Leaves (add64 dst.toNat) (decimal value.toNat)
        (uint64ToStr log10 value.toNat dst.toNat).2 :=
  ⟨(uint64ToStr_spells dst.toNat value.toNat_lt hlog).1,
    uint64ToStr_left dst.toNat value.toNat_lt hlog⟩

end

/-- The greatest of 64 bits. -/
theorem uint64ToStr_leaves_max :
    (uint64ToStr (Nat.log 10) 18446744073709551615 4096).1 = 20 ∧
      Leaves (add64 4096) (ascii "18446744073709551615")
        (uint64ToStr (Nat.log 10) 18446744073709551615 4096).2 := by
  have hdigits : decimal 18446744073709551615 = ascii "18446744073709551615" := by decide +kernel
  have h := uint64ToStr_leaves (Nat.log 10) 18446744073709551615 4096 rfl
  rw [show (18446744073709551615 : UInt64).toNat = 18446744073709551615 by decide, hdigits] at h
  exact ⟨h.1.trans (by decide +kernel), h.2⟩

end HappyServer.Common.Decimal
