import HappyServer.Common.Digits
import HappyServer.Server.Message
import Mathlib.Data.List.GetD

/-!
# `uint64_to_hexstr` (`common/string.hpp`)

The digits are written from the right, two for each byte of the value (`Digits`), and the zeros before
them from the left.  A run is the length it returns and the log of its writes.

`logLength value` stands for `static_cast<size_t>(std::log(value) / std::log(16) + 1)`.

* `padded value fillzero`: the digits behind the zeros.
* `Renders logLength value dst fillzero`: the run leaves this text at `dst` and returns its length.
* `LetterFirst value`: a leading digit from `A` to `F` without another to make a pair.

    Renders logLength value dst fillzero ↔
      ¬LetterFirst value ∨ (hexUpper value).length < fillzero           (renders_iff)
-/

namespace HappyServer.Common.Hexstr

open Word Writes Server Digits

def digits : List UInt8 :=
  [ "000102030405060708090A0B0C0D0E0F",
    "101112131415161718191A1B1C1D1E1F",
    "202122232425262728292A2B2C2D2E2F",
    "303132333435363738393A3B3C3D3E3F",
    "404142434445464748494A4B4C4D4E4F",
    "505152535455565758595A5B5C5D5E5F",
    "606162636465666768696A6B6C6D6E6F",
    "707172737475767778797A7B7C7D7E7F",
    "808182838485868788898A8B8C8D8E8F",
    "909192939495969798999A9B9C9D9E9F",
    "A0A1A2A3A4A5A6A7A8A9AAABACADAEAF",
    "B0B1B2B3B4B5B6B7B8B9BABBBCBDBEBF",
    "C0C1C2C3C4C5C6C7C8C9CACBCCCDCECF",
    "D0D1D2D3D4D5D6D7D8D9DADBDCDDDEDF",
    "E0E1E2E3E4E5E6E7E8E9EAEBECEDEEEF",
    "F0F1F2F3F4F5F6F7F8F9FAFBFCFDFEFF" ].flatMap ascii

/-- `while (length + padding < fillzero)` -/
def padLoop (length fillzero dst padding : Nat) (log : Log) : Nat × Nat × Log :=
  if length + padding < fillzero then
    padLoop length fillzero (add64 dst 1) (padding + 1) (log ++ [(dst, zero)])
  else (dst, padding, log)
termination_by fillzero - (length + padding)

/-- `while (value >= 256)` -/
def pairLoop (dst value next : Nat) (log : Log) : Nat × Nat × Log :=
  if value ≥ 256 then
    pairLoop dst (value / 256) (sub64 next 2) (log ++ writePair digits dst next (value % 256 * 2))
  else (value, next, log)
termination_by value

def uint64ToHexstr (logLength : Nat → Nat) (value dst fillzero : Nat) : Nat × Log :=
  let length := if value < 16 then 1 else logLength value
  let (dst, padding, log) := padLoop length fillzero dst 0 []
  let (value, next, log) := pairLoop dst value (sub64 length 1) log
  (length + padding, log ++ lastDigits digits dst value next)

variable {dst fillzero value next : Nat}

/-! ## Digits -/

def hexDigit (d : Nat) : UInt8 := (Nat.digitChar d).toUpper.toNat.toUInt8

theorem hexUpper_of_lt {n : Nat} (h : n < 16) : hexUpper n = [hexDigit n] := by
  unfold hexUpper
  rw [Nat.toDigits_of_lt_base h]
  rfl

theorem hexUpper_of_le {n : Nat} (h : 16 ≤ n) :
    hexUpper n = hexUpper (n / 16) ++ [hexDigit (n % 16)] := by
  unfold hexUpper
  rw [Nat.toDigits_of_base_le (by decide) h, List.map_append]
  rfl

/-- The last two digits are those of the last byte. -/
theorem hexUpper_byte_step {n : Nat} (h : 256 ≤ n) :
    hexUpper n = hexUpper (n / 256) ++ [hexDigit (n % 256 / 16), hexDigit (n % 256 % 16)] := by
  rw [hexUpper_of_le (by omega), hexUpper_of_le (show 16 ≤ n / 16 by omega), List.append_assoc,
    show n / 16 / 16 = n / 256 by omega, show n / 16 % 16 = n % 256 / 16 by omega,
    show n % 16 = n % 256 % 16 by omega]
  rfl

theorem length_hexUpper_pos (n : Nat) : 0 < (hexUpper n).length := by
  unfold hexUpper
  rw [List.length_map]
  exact Nat.length_toDigits_pos

theorem length_hexUpper_le {n : Nat} (h : n < 2 ^ 64) : (hexUpper n).length ≤ 16 := by
  unfold hexUpper
  rw [List.length_map, Nat.length_toDigits_le_iff (by decide) (by decide)]
  exact h

/-- The table has the two digits of every byte. -/
theorem digits_eq :
    digits = (List.range 256).flatMap fun v => [hexDigit (v / 16), hexDigit (v % 16)] := by
  decide +kernel

theorem getD_pairs (f g : Nat → UInt8) (n : Nat) :
    ((List.range n).flatMap fun v => [f v, g v]).length = n * 2 ∧
      ∀ v < n, ((List.range n).flatMap fun v => [f v, g v]).getD (v * 2) 0 = f v ∧
        ((List.range n).flatMap fun v => [f v, g v]).getD (v * 2 + 1) 0 = g v := by
  induction n with
  | zero => exact ⟨rfl, fun v hv => absurd hv (Nat.not_lt_zero v)⟩
  | succ n ih =>
    obtain ⟨hlen, ih⟩ := ih
    rw [List.range_succ, List.flatMap_append]
    refine ⟨?_, fun v hv => ?_⟩
    · rw [List.length_append, hlen]
      show n * 2 + 2 = (n + 1) * 2
      omega
    · by_cases hvn : v < n
      · rw [List.getD_append _ _ _ _ (by omega), List.getD_append _ _ _ _ (by omega)]
        exact ih v hvn
      · obtain rfl : v = n := by omega
        rw [List.getD_append_right _ _ _ _ (by omega), List.getD_append_right _ _ _ _ (by omega),
          hlen, Nat.sub_self, Nat.add_sub_cancel_left]
        exact ⟨rfl, rfl⟩

theorem digits_pair {v : Nat} (hv : v < 256) : digits.getD (v * 2) 0 = hexDigit (v / 16) ∧
    digits.getD (v * 2 + 1) 0 = hexDigit (v % 16) := by
  rw [digits_eq]
  exact (getD_pairs (fun v => hexDigit (v / 16)) (fun v => hexDigit (v % 16)) 256).2 v hv

theorem digit_char : ∀ v < 10, zero + v.toUInt8 = hexDigit v := by
  decide

/-- `lead` is the leading byte of `value`, and `tail` the digits after those of it. -/
structure Leads (value lead : Nat) (tail : List UInt8) : Prop where
  lt : lead < 256
  div : ∃ k, lead = value / 256 ^ k
  ne_zero : value ≠ 0 → lead ≠ 0
  split : hexUpper value = hexUpper lead ++ tail

theorem leads_self {lead : Nat} (h : lead < 256) : Leads lead lead [] :=
  ⟨h, ⟨0, by simp⟩, id, by simp⟩

/-- The last byte of the value is split off, and then that of what is left. -/
theorem Leads.byte {lead : Nat} {tail : List UInt8} (hlarge : 256 ≤ value)
    (h : Leads (value / 256) lead tail) :
    Leads value lead (tail ++ [hexDigit (value % 256 / 16), hexDigit (value % 256 % 16)]) := by
  obtain ⟨k, hk⟩ := h.div
  refine ⟨h.lt, ⟨k + 1, ?_⟩, fun _ => h.ne_zero (by omega), ?_⟩
  · rw [hk, Nat.div_div_eq_div_mul, Nat.pow_succ, Nat.mul_comm]
  · rw [hexUpper_byte_step hlarge, h.split, List.append_assoc]

/-! ## The loops -/

theorem padLoop_spells (length fillzero k : Nat) :
    ∀ dst padding log, dst < 2 ^ 64 → fillzero - (length + padding) = k →
      ∃ zeros dst', padLoop length fillzero dst padding log = (dst', padding + k, log ++ zeros) ∧
        (∀ i, add64 dst' i = add64 dst (k + i)) ∧
        Spells (add64 dst) (List.replicate k zero) zeros := by
  induction k with
  | zero =>
    intro dst padding log hdst hk
    rw [padLoop, if_neg (by omega)]
    exact ⟨[], dst, by simp, by simp, spells_nil _⟩
  | succ k ih =>
    intro dst padding log hdst hk
    have hone : add64 dst 0 = dst := by unfold add64; omega
    obtain ⟨zeros, dst', hloop, haddr, hspells⟩ :=
      ih (add64 dst 1) (padding + 1) (log ++ [(dst, zero)]) (Buffer.add64_lt dst 1) (by omega)
    refine ⟨(dst, zero) :: zeros, dst', ?_, ?_, ?_⟩
    · rw [padLoop, if_pos (by omega), hloop, List.append_assoc,
        show padding + 1 + k = padding + (k + 1) by omega]
      rfl
    · intro i
      rw [haddr i, add64_add64, show 1 + (k + i) = k + 1 + i by omega]
    · have hhead := spells_singleton (add64 dst) zero
      rw [hone] at hhead
      exact hhead.append (hspells.move fun i => add64_add64 dst 1 i)

/-- The pairs are all digits but those of the leading byte. -/
theorem pairLoop_spells (dst value : Nat) :
    ∀ log, value < 2 ^ 64 → ∃ lead tail pairs,
      pairLoop dst value ((hexUpper value).length - 1) log
        = (lead, (hexUpper lead).length - 1, log ++ pairs) ∧
      Leads value lead tail ∧
      Spells (fun i => add64 dst ((hexUpper lead).length + i)) tail pairs := by
  induction value using Nat.strong_induction_on with
  | _ value ih =>
    intro log hvalue
    rw [pairLoop]
    by_cases hlarge : value ≥ 256
    · rw [if_pos hlarge]
      have hpos := length_hexUpper_pos (value / 256)
      have hshort := length_hexUpper_le hvalue
      have hlen : (hexUpper value).length = (hexUpper (value / 256)).length + 2 := by
        rw [hexUpper_byte_step hlarge, List.length_append]
        rfl
      have hnext : sub64 ((hexUpper value).length - 1) 2 = (hexUpper (value / 256)).length - 1 := by
        rw [sub64_of_le _ _ (by omega) (by omega)]
        omega
      obtain ⟨lead, tail, pairs, hloop, hleads, hspells⟩ :=
        ih (value / 256) (by omega)
          (log ++ writePair digits dst ((hexUpper value).length - 1) (value % 256 * 2)) (by omega)
      have htail : (hexUpper (value / 256)).length = (hexUpper lead).length + tail.length := by
        rw [hleads.split, List.length_append]
      refine ⟨lead, tail ++ [hexDigit (value % 256 / 16), hexDigit (value % 256 % 16)],
        writePair digits dst ((hexUpper value).length - 1) (value % 256 * 2) ++ pairs, ?_,
        hleads.byte hlarge, ?_⟩
      · rw [hnext, hloop, List.append_assoc]
      · have hpair : Spells (fun i => add64 dst ((hexUpper lead).length + (tail.length + i)))
            [hexDigit (value % 256 / 16), hexDigit (value % 256 % 16)]
            (writePair digits dst ((hexUpper value).length - 1) (value % 256 * 2)) := by
          refine (writePair_spells (digits_pair (Nat.mod_lt value (by decide))) (by omega) (by omega)).move fun i => ?_
          rw [show (hexUpper value).length - 1 - 1 + i = (hexUpper lead).length + (tail.length + i)
            by omega]
        -- the pair on the right is written first
        refine (hspells.append hpair).congr fun w => ?_
        rw [List.mem_append, List.mem_append]
        exact Or.comm
    · rw [if_neg hlarge]
      exact ⟨value, [], [], by simp, leads_self (by omega), spells_nil _⟩

/-- A letter alone is written as a pair: the zero before it goes before `dst`. -/
theorem lastDigits_spells (dst : Nat) {lead : Nat} (hlead : lead < 256) :
    ∃ log, Spells (add64 dst) (hexUpper lead) log ∧
      ∀ w, w ∈ lastDigits digits dst lead ((hexUpper lead).length - 1) ↔
        w ∈ log ∨ ((10 ≤ lead ∧ lead < 16) ∧ w = (add64 dst (2 ^ 64 - 1), zero)) := by
  unfold lastDigits
  by_cases hdigit : lead < 10
  · rw [if_pos hdigit, hexUpper_of_lt (by omega), digit_char lead hdigit]
    refine ⟨_, spells_singleton _ _, fun w => ?_⟩
    have : ¬10 ≤ lead := by omega
    simp [this]
  · rw [if_neg hdigit]
    by_cases hletter : lead < 16
    · rw [hexUpper_of_lt hletter]
      refine ⟨_, spells_singleton _ _, fun w => ?_⟩
      obtain ⟨hhigh, hlow⟩ := digits_pair hlead
      have hzero : hexDigit 0 = zero := by decide
      have hback : sub64 0 1 = 2 ^ 64 - 1 := by decide
      unfold writePair
      rw [hhigh, hlow, Nat.div_eq_of_lt hletter, Nat.mod_eq_of_lt hletter, hzero]
      show w ∈ [(add64 dst 0, hexDigit lead), (add64 dst (sub64 0 1), zero)] ↔ _
      rw [hback]
      simp [hletter, Nat.le_of_not_lt hdigit]
    · have hdigits : hexUpper lead = [hexDigit (lead / 16), hexDigit (lead % 16)] := by
        rw [hexUpper_of_le (by omega), hexUpper_of_lt (by omega)]
        rfl
      rw [hdigits]
      have hpair : Spells (add64 dst) [hexDigit (lead / 16), hexDigit (lead % 16)]
          (writePair digits dst 1 (lead * 2)) := by
        refine (writePair_spells (digits_pair hlead) (Nat.le_refl 1) (by decide)).move fun i => ?_
        rw [Nat.sub_self, Nat.zero_add]
      refine ⟨_, hpair, fun w => ?_⟩
      simp [hletter]

/-! ## The whole text -/

/-- The number of digits is odd, and the first is a letter. -/
def LetterFirst (value : Nat) : Prop := ∃ k < 8, 10 * 256 ^ k ≤ value ∧ value < 16 * 256 ^ k

instance (value : Nat) : Decidable (LetterFirst value) :=
  inferInstanceAs (Decidable (∃ k < 8, _))

theorem Leads.letterFirst_iff {lead : Nat} {tail : List UInt8} (h : Leads value lead tail)
    (hvalue : value < 2 ^ 64) : 10 ≤ lead ∧ lead < 16 ↔ LetterFirst value := by
  have hpos := fun k : Nat => Nat.pow_pos (n := k) (show 0 < 256 by decide)
  have hlt_of_pow : ∀ {i j : Nat}, 256 ^ i < 256 ^ j → i < j := fun h =>
    (Nat.pow_lt_pow_iff_right (by decide)).mp h
  obtain ⟨k, hk⟩ := h.div
  constructor
  · rintro ⟨hlow, hhigh⟩
    rw [hk, Nat.le_div_iff_mul_le (hpos k)] at hlow
    rw [hk, Nat.div_lt_iff_lt_mul (hpos k)] at hhigh
    exact ⟨k, hlt_of_pow (show 256 ^ k < 256 ^ 8 by omega), hlow, hhigh⟩
  · rintro ⟨j, -, hlow, hhigh⟩
    have hj := hpos j
    have hone : 1 ≤ lead := Nat.one_le_iff_ne_zero.mpr (h.ne_zero (by omega))
    rw [hk, Nat.le_div_iff_mul_le (hpos k)] at hone
    have hlt := h.lt
    rw [hk, Nat.div_lt_iff_lt_mul (hpos k)] at hlt
    -- `value` is between two neighbouring powers only
    have hkj : k < j + 1 := hlt_of_pow (by rw [Nat.pow_succ]; omega)
    have hjk : j < k + 1 := hlt_of_pow (by rw [Nat.pow_succ]; omega)
    obtain rfl : j = k := by omega
    rw [hk]
    exact ⟨(Nat.le_div_iff_mul_le hj).mpr hlow, (Nat.div_lt_iff_lt_mul hj).mpr hhigh⟩

/-- What is to be at `dst`. -/
def padded (value fillzero : Nat) : List UInt8 := (hexUpper value).leftpad fillzero zero

theorem length_padded (value fillzero : Nat) :
    (padded value fillzero).length = max (hexUpper value).length fillzero := by
  unfold padded
  rw [List.length_leftpad, Nat.max_comm]

/-- Apart from the zero before a letter, the run spells the text. -/
theorem uint64ToHexstr_spells {logLength : Nat → Nat} (fillzero : Nat) (hvalue : value < 2 ^ 64)
    (hdst : dst < 2 ^ 64)
    (hlog : 16 ≤ value → logLength value = (hexUpper value).length) :
    (uint64ToHexstr logLength value dst fillzero).1 = max (hexUpper value).length fillzero ∧
      ∃ log, Spells (add64 dst) (padded value fillzero) log ∧
        ∀ w, w ∈ (uint64ToHexstr logLength value dst fillzero).2 ↔ w ∈ log ∨ (LetterFirst value ∧
          w = (add64 dst (fillzero - (hexUpper value).length + (2 ^ 64 - 1)), zero)) := by
  have hlength : (if value < 16 then 1 else logLength value) = (hexUpper value).length := by
    split
    next hsmall => rw [hexUpper_of_lt hsmall]; rfl
    next hlarge => exact hlog (by omega)
  have hpos := length_hexUpper_pos value
  have hshort := length_hexUpper_le hvalue
  obtain ⟨zeros, dst', hpad, haddr, hzeros⟩ :=
    padLoop_spells (hexUpper value).length fillzero (fillzero - (hexUpper value).length) dst 0 []
      hdst rfl
  obtain ⟨lead, tail, pairs, hloop, hleads, hpairs⟩ := pairLoop_spells dst' value zeros hvalue
  obtain ⟨last, hlast, hmem⟩ := lastDigits_spells dst' hleads.lt
  unfold uint64ToHexstr
  simp only [hlength, hpad, sub64_of_le _ 1 hpos (show (hexUpper value).length < 2 ^ 64 by omega),
    List.nil_append, hloop]
  refine ⟨by omega, zeros ++ (last ++ pairs), ?_, fun w => ?_⟩
  · have hdigits := hlast.append hpairs
    rw [← hleads.split] at hdigits
    refine hzeros.append (hdigits.move fun i => ?_)
    rw [haddr i, List.length_replicate]
  · rw [List.mem_append, List.mem_append, hmem w, hleads.letterFirst_iff hvalue, haddr]
    simp only [List.mem_append, or_assoc, or_left_comm]

/-- The length is returned, nothing outside is written, and the text is there. -/
structure Renders (logLength : Nat → Nat) (value dst fillzero : Nat) : Prop where
  length : (uint64ToHexstr logLength value dst fillzero).1 = max (hexUpper value).length fillzero
  inside : ∀ w ∈ (uint64ToHexstr logLength value dst fillzero).2,
    ∃ i < max (hexUpper value).length fillzero, w.1 = add64 dst i
  text : ∀ mem : Nat → UInt8,
    (List.range (max (hexUpper value).length fillzero)).map (fun i =>
      wrote mem (uint64ToHexstr logLength value dst fillzero).2 (add64 dst i)) = padded value fillzero

theorem renders_of_spells {logLength : Nat → Nat} (hvalue : value < 2 ^ 64)
    (hfillzero : fillzero < 2 ^ 64)
    (hlength : (uint64ToHexstr logLength value dst fillzero).1 = max (hexUpper value).length fillzero)
    (h : Spells (add64 dst) (padded value fillzero) (uint64ToHexstr logLength value dst fillzero).2) :
    Renders logLength value dst fillzero := by
  have hshort := length_hexUpper_le hvalue
  have hlen := length_padded value fillzero
  refine ⟨hlength, fun w hw => ?_, fun mem => ?_⟩
  · rw [← hlen]
    exact h.inside hw
  · rw [← hlen]
    refine h.read (fun i hi j hj heq => ?_) mem
    exact add64_inj (by omega) (by omega) heq

theorem renders_iff {logLength : Nat → Nat} (hvalue : value < 2 ^ 64) (hdst : dst < 2 ^ 64)
    (hfillzero : fillzero < 2 ^ 64)
    (hlog : 16 ≤ value → logLength value = (hexUpper value).length) :
    Renders logLength value dst fillzero ↔
      ¬LetterFirst value ∨ (hexUpper value).length < fillzero := by
  have hshort := length_hexUpper_le hvalue
  obtain ⟨hlength, log, hspells, hmem⟩ := uint64ToHexstr_spells fillzero hvalue hdst hlog
  constructor
  · intro h
    by_contra hbad
    rw [not_or, not_not, not_lt] at hbad
    obtain ⟨hletter, hle⟩ := hbad
    obtain ⟨i, hi, haddr⟩ := h.inside _ ((hmem _).mpr (Or.inr ⟨hletter, rfl⟩))
    have := add64_inj (by omega) (by omega) haddr
    omega
  · intro hgood
    refine renders_of_spells hvalue hfillzero hlength (hspells.congr fun w => ?_)
    rw [hmem w]
    refine ⟨fun h => h.elim id ?_, Or.inl⟩
    rintro ⟨hletter, rfl⟩
    -- the zero goes to the last place of the padding
    have hlt := hgood.resolve_left (not_not.mpr hletter)
    refine (hspells _).mpr ⟨fillzero - (hexUpper value).length - 1, ?_, ?_⟩
    · unfold padded List.leftpad
      rw [List.getElem?_append_left (by rw [List.length_replicate]; omega),
        List.getElem?_replicate_of_lt (by omega)]
    · unfold add64
      dsimp only
      omega

/-- A service id of 32 bits in the header of a line: eight digits are asked for. -/
theorem renders_serviceid {logLength : Nat → Nat} (hvalue : value < 2 ^ 32) (hdst : dst < 2 ^ 64)
    (hlog : 16 ≤ value → logLength value = (hexUpper value).length) :
    Renders logLength value dst 8 := by
  refine (renders_iff (by omega) hdst (by decide) hlog).mpr ?_
  by_cases hletter : LetterFirst value
  · obtain ⟨k, -, hlow, hhigh⟩ := hletter
    have hk : k < 4 := by
      refine (Nat.pow_lt_pow_iff_right (show 1 < 256 by decide)).mp ?_
      omega
    have hpow : 256 ^ k ≤ 256 ^ 3 := Nat.pow_le_pow_right (by decide) (by omega)
    have hshort : (hexUpper value).length ≤ 7 := by
      unfold hexUpper
      rw [List.length_map, Nat.length_toDigits_le_iff (by decide) (by decide)]
      omega
    exact Or.inr (by omega)
  · exact Or.inl hletter

/-- **Hexadecimal.**  The padded digits, and nothing else, are written except for an odd number of digits
of which the first is a letter: then the byte before them is written, which is only a `0` of the
padding if there is one. -/
theorem uint64ToHexstr_renders_iff (logLength : Nat → Nat) (value dst fillzero : UInt64)
    (hlog : 16 ≤ value.toNat → logLength value.toNat = (hexUpper value.toNat).length) :
    Renders logLength value.toNat dst.toNat fillzero.toNat ↔
      ¬LetterFirst value.toNat ∨ (hexUpper value.toNat).length < fillzero.toNat :=
  renders_iff value.toNat_lt dst.toNat_lt fillzero.toNat_lt hlog

/-- The digits that four bits each need. -/
def exactLength (value : Nat) : Nat := value.log2 / 4 + 1

theorem uint64ToHexstr_renders_1234 :
    Renders exactLength 0x1234 4096 0 ∧ Renders exactLength 0xABC 4096 4 :=
  ⟨(uint64ToHexstr_renders_iff exactLength 0x1234 4096 0 (by decide)).mpr (.inl (by decide)),
    (uint64ToHexstr_renders_iff exactLength 0xABC 4096 4 (by decide)).mpr (.inr (by decide))⟩

/-- 10 is `A`, and the byte before it becomes a `0`. -/
theorem not_uint64ToHexstr_renders :
    uint64ToHexstr exactLength 10 4096 0 = (1, [(4096, 65), (4095, 48)]) ∧
      ¬∀ (logLength : Nat → Nat) (value dst fillzero : UInt64),
        (16 ≤ value.toNat → logLength value.toNat = (hexUpper value.toNat).length) →
        Renders logLength value.toNat dst.toNat fillzero.toNat := by
  have hrun : uint64ToHexstr exactLength 10 4096 0 = (1, [(4096, 65), (4095, 48)]) := by
    have hpad : padLoop 1 0 4096 0 [] = (4096, 0, []) := by rw [padLoop]; rfl
    have hpair : pairLoop 4096 10 0 [] = (10, 0, []) := by rw [pairLoop]; rfl
    have hnext : sub64 1 1 = 0 := by decide
    obtain ⟨hhigh, hlow⟩ := digits_pair (show 10 < 256 by decide)
    unfold uint64ToHexstr
    simp only [show (10 : Nat) < 16 by decide, ↓reduceIte, hpad, hnext, hpair]
    unfold lastDigits writePair
    rw [if_neg (by decide), hhigh, hlow]
    decide
  refine ⟨hrun, fun h => ?_⟩
  obtain ⟨i, hi, haddr⟩ := (h exactLength 10 4096 0 (by decide)).inside (4095, 48) (by
    show (4095, 48) ∈ (uint64ToHexstr exactLength 10 4096 0).2
    rw [hrun]
    decide)
  have hi : i < 1 := hi
  obtain rfl : i = 0 := by omega
  revert haddr
  decide

end HappyServer.Common.Hexstr
