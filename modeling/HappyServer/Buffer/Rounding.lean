import HappyServer.Buffer.Memcpy
import HappyServer.Lib.Smear

/-!
# The sizes a buffer grows to

`next_pow2` shifts by 1, 2, 4, 8 and 16: a bit spreads over 32 bits, and not over the 64 of a
`size_t`.

* `Filled x`: `x` is a power of two, or has no 32 zeros in a row below its leading bit.

    Filled x ↔ nextPow2 x is the least power of two from `x` on        (isLeast_nextPow2_iff)
    x ≤ 2 ^ 33 → Filled x                                              (filled_of_le)
-/

namespace HappyServer.Buffer

open Block Word Smear

variable {fresh : Nat → UInt8} {b b' : Buffer} {need x : Nat}

def Filled (x : Nat) : Prop := x.isPowerOfTwo ∨ Dense 32 x

theorem nextPow2_of_isPowerOfTwo (hlt : x < 2 ^ 64) (h : x.isPowerOfTwo) : nextPow2 x = x := by
  have hpos := Nat.pos_of_isPowerOfTwo h
  unfold nextPow2
  rw [sub64_of_le x 1 hpos hlt]
  exact if_pos ((Nat.and_sub_one_eq_zero_iff_isPowerOfTwo (by omega)).mpr h)

/-- The five shifts. -/
theorem nextPow2_smears (hpos : 1 ≤ x) (hle : x ≤ 2 ^ 63) (h : ¬x.isPowerOfTwo) :
    ∃ y, Spread 32 x y ∧ nextPow2 x = y + 1 := by
  have h2 := (spread_one x).or_shiftRight (Nat.le_refl 1)
  have h4 := h2.or_shiftRight (Nat.le_refl 2)
  have h8 := h4.or_shiftRight (Nat.le_refl 4)
  have h16 := h8.or_shiftRight (Nat.le_refl 8)
  have h32 := h16.or_shiftRight (Nat.le_refl 16)
  have hlt : x < 2 ^ 63 := Nat.lt_of_le_of_ne hle fun h63 => h ⟨63, h63⟩
  have hlog : x.log2 + 1 ≤ 63 := (Nat.log2_lt (by omega)).mpr hlt
  have hroom : 2 ^ (x.log2 + 1) ≤ 2 ^ 63 := Nat.pow_le_pow_right (by decide) hlog
  refine ⟨_, h32, ?_⟩
  have hsmeared := h32.lt
  unfold nextPow2
  rw [sub64_of_le x 1 hpos (by omega),
    if_neg fun h0 => h ((Nat.and_sub_one_eq_zero_iff_isPowerOfTwo (by omega)).mp h0)]
  exact add64_of_lt _ 1 (by omega)

theorem isPowerOfTwo_nextPow2_iff (hpos : 1 ≤ x) (hle : x ≤ 2 ^ 63) :
    (nextPow2 x).isPowerOfTwo ↔ Filled x := by
  by_cases hpow : x.isPowerOfTwo
  · rw [nextPow2_of_isPowerOfTwo (by omega) hpow]
    exact ⟨Or.inl, fun _ => hpow⟩
  · obtain ⟨y, hspread, hnext⟩ := nextPow2_smears hpos hle hpow
    rw [hnext, hspread.isPowerOfTwo_succ_iff (by decide) (by omega)]
    exact ⟨Or.inr, fun h => h.resolve_left hpow⟩

theorem isLeast_nextPow2_iff (hpos : 1 ≤ x) (hle : x ≤ 2 ^ 63) :
    IsLeast {p : Nat | p.isPowerOfTwo ∧ x ≤ p} (nextPow2 x) ↔ Filled x := by
  constructor
  · intro h
    exact (isPowerOfTwo_nextPow2_iff hpos hle).mp h.1.1
  · intro h
    by_cases hpow : x.isPowerOfTwo
    · rw [nextPow2_of_isPowerOfTwo (by omega) hpow]
      exact isLeast_self hpow
    · obtain ⟨y, hspread, hnext⟩ := nextPow2_smears hpos hle hpow
      have hx : x ≠ 0 := by omega
      rw [hnext, (hspread.eq_iff hx).mpr (h.resolve_left hpow)]
      have hlow : 2 ^ x.log2 < x :=
        Nat.lt_of_le_of_ne (Nat.log2_self_le hx) fun heq => hpow ⟨x.log2, heq.symm⟩
      exact isLeast_two_pow hlow Nat.lt_log2_self.le

/-- No size up to 8 GiB shows that the sixth shift is missing. -/
theorem filled_of_le (hle : x ≤ 2 ^ 33) : Filled x := by
  by_cases hpow : x.isPowerOfTwo
  · exact Or.inl hpow
  · have hlt : x < 2 ^ 33 := Nat.lt_of_le_of_ne hle fun h33 => hpow ⟨33, h33⟩
    exact Or.inr (dense_of_lt hlt hpow)

/-! ## Growth -/

theorem capacity_grow (h : b.grow fresh need = some b') :
    b'.capacity_ = nextPow2 (add64 b.writepos_ need) := by
  obtain ⟨heap, -, -, rfl⟩ := grow_some h
  rfl

theorem checkSpace_grows (hi : Intact b) (hwrite : b.writepos_ ≤ b.capacity_)
    (hneed : ¬need ≤ b.writeablesize) (hgrows : b.grows need)
    (hnew : b.writepos_ ≤ nextPow2 (add64 b.writepos_ need)) :
    ∃ b', b.checkSpace fresh need = some b' ∧ b'.capacity_ = nextPow2 (add64 b.writepos_ need) := by
  have hold : b.writepos_ ≤ b.storage.length := hwrite.trans_eq hi.symm
  obtain ⟨b', hgrow, -⟩ := grow_of_le fresh hold hnew
  refine ⟨b', ?_, capacity_grow hgrow⟩
  unfold checkSpace
  rw [if_neg hneed, if_pos hgrows]
  exact hgrow

/-- There is no power of two of 64 bits above `2 ^ 63`. -/
theorem le_of_isPowerOfTwo (hpow : x.isPowerOfTwo) (hlt : x < 2 ^ 64) : x ≤ 2 ^ 63 := by
  obtain ⟨k, rfl⟩ := hpow
  have : k < 64 := (Nat.pow_lt_pow_iff_right (by decide)).mp hlt
  exact Nat.pow_le_pow_right (by decide) (by omega)

theorem capacity_grow_iff (hneed : b.writeablesize < need) (h : b.grow fresh need = some b') :
    b'.capacity_.isPowerOfTwo ∧ b.writepos_ + need ≤ b'.capacity_ ↔
      b.writepos_ + need ≤ 2 ^ 63 ∧ Filled (b.writepos_ + need) := by
  have hpos : 1 ≤ b.writepos_ + need := by omega
  rw [capacity_grow h]
  constructor
  · rintro ⟨hpow, hle⟩
    have hsum : b.writepos_ + need ≤ 2 ^ 63 :=
      hle.trans (le_of_isPowerOfTwo hpow (nextPow2_lt (add64_lt _ _)))
    rw [add64_of_lt _ _ (by omega)] at hpow
    exact ⟨hsum, (isPowerOfTwo_nextPow2_iff hpos hsum).mp hpow⟩
  · rintro ⟨hsum, hfilled⟩
    rw [add64_of_lt _ _ (by omega)]
    exact ((isLeast_nextPow2_iff hpos hsum).mpr hfilled).1

/-- **Growth.**  What `next_pow2` gives is the least power of two from `x` on, and the capacity after a
growth a power of two with room for what is needed, exactly for the sizes that are `Filled`. -/
theorem growth_rounds_iff (fresh : Nat → UInt8) (x : Nat) (hpos : 1 ≤ x) (hle : x ≤ 2 ^ 63) :
    (IsLeast {p : Nat | p.isPowerOfTwo ∧ x ≤ p} (nextPow2 x) ↔ Filled x) ∧
      ∀ (b b' : Buffer) (need : Nat), ¬need ≤ b.writeablesize → b.grows need →
        b.checkSpace fresh need = some b' →
        (b'.capacity_.isPowerOfTwo ∧ b.writepos_ + need ≤ b'.capacity_ ↔
          b.writepos_ + need ≤ 2 ^ 63 ∧ Filled (b.writepos_ + need)) := by
  refine ⟨isLeast_nextPow2_iff hpos hle, ?_⟩
  intro b b' need hneed hgrows h
  unfold checkSpace at h
  rw [if_neg hneed, if_pos hgrows] at h
  exact capacity_grow_iff (by omega) h

theorem growth_rounds_514 :
    IsLeast {p : Nat | p.isPowerOfTwo ∧ 514 ≤ p} (nextPow2 514) ∧
      ∃ b', (blank 14).checkSpace (fun _ => 0) 500 = some b' ∧
        b'.capacity_.isPowerOfTwo ∧ 514 ≤ b'.capacity_ := by
  have hfilled : Filled 514 := filled_of_le (by decide)
  obtain ⟨hleast, hgrowth⟩ := growth_rounds_iff (fun _ => 0) 514 (by decide) (by decide)
  refine ⟨hleast.mpr hfilled, ?_⟩
  obtain ⟨b', hb', -⟩ : ∃ b', (blank 14).checkSpace (fun _ => 0) 500 = some b' ∧
      b'.capacity_ = nextPow2 (add64 14 500) :=
    checkSpace_grows List.length_replicate (by decide) (by decide) (by decide) (by decide)
  exact ⟨b', hb', (hgrowth _ b' 500 (by decide) (by decide) hb').mpr ⟨by decide, hfilled⟩⟩

/-- The leading bit of `2 ^ 33 + 1` spreads down to bit 2, and bit 1 stays empty. -/
theorem not_growth_rounds :
    (nextPow2 8589934593 = 17179869182 ∧
      ¬IsLeast {p : Nat | p.isPowerOfTwo ∧ 8589934593 ≤ p} (nextPow2 8589934593)) ∧
    ∃ b', (blank 14).checkSpace (fun _ => 0) 8589934579 = some b' ∧
      ¬b'.capacity_.isPowerOfTwo := by
  have hnext : nextPow2 8589934593 = 17179869182 := by decide
  have hpow : ¬(17179869182 : Nat).isPowerOfTwo := by decide
  refine ⟨⟨hnext, ?_⟩, ?_⟩
  · rw [hnext]
    exact fun h => hpow h.1.1
  · obtain ⟨b', hb', hcapacity⟩ : ∃ b', (blank 14).checkSpace (fun _ => 0) 8589934579 = some b' ∧
        b'.capacity_ = nextPow2 (add64 14 8589934579) :=
      checkSpace_grows List.length_replicate (by decide) (by decide) (by decide) (by decide)
    refine ⟨b', hb', ?_⟩
    rw [hcapacity, show add64 14 8589934579 = 8589934593 by decide, hnext]
    exact hpow

end HappyServer.Buffer
