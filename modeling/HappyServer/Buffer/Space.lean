import HappyServer.Buffer.Buffer

/-!
# Finding space in a buffer

* `Ordered`: the positions are in order, and `Intact`: the storage is as large as `capacity_`.
* `Room b need`: no size that `check_space` computes overflows.
* `Holds b q`: `q` is what can be read.

    Ordered b → Room b need → checkSpace fresh b need = some b' →
      Ordered b' ∧ b'.writepos_ + need ≤ b'.capacity_                     (Ordered.checkSpace)
    … → Intact b → ∃ b', checkSpace fresh b need = some b' ∧ Intact b'    (Intact.checkSpace)
    … → Holds b q → Holds b' q                                            (Holds.checkSpace)
-/

namespace HappyServer.Buffer

open Block Word

variable {fresh : Nat → UInt8} {b b' : Buffer} {need pos n : Nat} {bytes q : List UInt8}

structure Ordered (b : Buffer) : Prop where
  read_le : b.readpos_ ≤ b.writepos_
  write_le : b.writepos_ ≤ b.capacity_
  capacity_lt : b.capacity_ < 2 ^ 64

def Intact (b : Buffer) : Prop := b.storage.length = b.capacity_

/-- `b'` differs from `b` in the storage only. -/
structure SameFields (b b' : Buffer) : Prop where
  flag : b'.flag_ = b.flag_
  head : b'.headreserved_ = b.headreserved_
  capacity : b'.capacity_ = b.capacity_
  read : b'.readpos_ = b.readpos_
  write : b'.writepos_ = b.writepos_

theorem size_eq (h : Ordered b) : b.size = b.writepos_ - b.readpos_ := by
  have := h.write_le
  have := h.capacity_lt
  exact sub64_of_le _ _ h.read_le (by omega)

theorem writeablesize_eq (h : Ordered b) : b.writeablesize = b.capacity_ - b.writepos_ :=
  sub64_of_le _ _ h.write_le h.capacity_lt

/-! ## Copies -/

theorem memcpy_of_store {block : List UInt8} (h : store b.storage pos bytes = some block) :
    ∃ b', b.memcpy pos bytes = some b' ∧ b'.storage = block ∧ SameFields b b' := by
  unfold memcpy
  unfold storage at h
  split
  next heap hheap =>
    rw [hheap, Option.getD_some] at h
    rw [h]
    exact ⟨_, rfl, rfl, rfl, rfl, rfl, rfl, rfl⟩
  next hheap =>
    rw [hheap, Option.getD_none] at h
    split
    next hnone => rw [h] at hnone; cases hnone
    next stack hstack =>
      refine ⟨_, rfl, ?_, rfl, rfl, rfl, rfl, rfl⟩
      show b.heap_data_.getD stack = block
      rw [hheap, Option.getD_none]
      exact Option.some.inj (hstack.symm.trans h)

theorem memcpy_some (h : b.memcpy pos bytes = some b') :
    store b.storage pos bytes = some b'.storage ∧ SameFields b b' := by
  cases hstore : store b.storage pos bytes with
  | some block =>
    obtain ⟨b'', hcopy, rfl, hsame⟩ := memcpy_of_store hstore
    obtain rfl := Option.some.inj (hcopy.symm.trans h)
    exact ⟨rfl, hsame⟩
  | none =>
    exfalso
    unfold memcpy at h
    unfold storage at hstore
    split at h
    next heap hheap =>
      rw [hheap, Option.getD_some] at hstore
      rw [hstore] at h
      cases h
    next hheap =>
      rw [hheap, Option.getD_none] at hstore
      split at h
      · cases h
      next stack hstack => rw [hstore] at hstack; cases hstack

theorem memcpy_of_le (b : Buffer) {pos : Nat} {bytes : List UInt8}
    (h : pos + bytes.length ≤ b.storage.length) :
    ∃ b', b.memcpy pos bytes = some b' ∧ store b.storage pos bytes = some b'.storage ∧
      SameFields b b' := by
  obtain ⟨b', hcopy, -, hsame⟩ := memcpy_of_store (store_of_le h)
  exact ⟨b', hcopy, (memcpy_some hcopy).1, hsame⟩

/-! ## The three ways of `check_space` -/

theorem grow_some (h : b.grow fresh need = some b') :
    ∃ heap, store ((List.range (nextPow2 (add64 b.writepos_ need))).map fresh) 0
        (b.storage.take b.writepos_) = some heap ∧
      b.writepos_ ≤ b.storage.length ∧
      b' = { b with heap_data_ := some heap, capacity_ := nextPow2 (add64 b.writepos_ need) } := by
  unfold grow at h
  obtain ⟨bytes, hload, h⟩ := Option.bind_eq_some_iff.mp h
  obtain ⟨hle, hbytes⟩ := load_some hload
  obtain ⟨heap, hstore, h⟩ := Option.bind_eq_some_iff.mp h
  rw [hbytes, List.drop_zero] at hstore
  exact ⟨heap, hstore, by omega, (Option.some.inj h).symm⟩

theorem compact_some (h : b.compact = some b') :
    (b.size ≠ 0 → ∃ bytes, load b.storage b.readpos_ b.size = some bytes ∧
      store b.storage b.headreserved_ bytes = some b'.storage) ∧
      (b.size = 0 → b'.storage = b.storage) ∧
      b'.flag_ = b.flag_ ∧ b'.headreserved_ = b.headreserved_ ∧ b'.capacity_ = b.capacity_ ∧
      b'.readpos_ = b.headreserved_ ∧ b'.writepos_ = add64 b.headreserved_ b.size := by
  unfold compact at h
  obtain ⟨moved, hmoved, h⟩ := Option.bind_eq_some_iff.mp h
  obtain rfl := Option.some.inj h
  unfold moveReadable at hmoved
  split at hmoved
  next hsize =>
    obtain ⟨bytes, hload, hcopy⟩ := Option.bind_eq_some_iff.mp hmoved
    obtain ⟨hstore, hsame⟩ := memcpy_some hcopy
    exact ⟨fun _ => ⟨bytes, hload, hstore⟩, fun h0 => absurd h0 hsize, hsame.flag, hsame.head,
      hsame.capacity, rfl, rfl⟩
  next hsize =>
    obtain rfl := Option.some.inj hmoved
    exact ⟨fun h0 => absurd h0 hsize, fun _ => rfl, rfl, rfl, rfl, rfl, rfl⟩

theorem checkSpace_some (h : b.checkSpace fresh need = some b') :
    (need ≤ b.writeablesize ∧ b' = b) ∨
      (b.writeablesize < need ∧ b.grows need ∧ b.grow fresh need = some b') ∨
      (b.writeablesize < need ∧ ¬b.grows need ∧ b.compact = some b') := by
  unfold checkSpace at h
  split at h
  next hneed => exact Or.inl ⟨hneed, (Option.some.inj h).symm⟩
  next hneed =>
    split at h
    next hgrows => exact Or.inr (Or.inl ⟨by omega, hgrows, h⟩)
    next hgrows => exact Or.inr (Or.inr ⟨by omega, hgrows, h⟩)

/-! ## Writing and reading -/

theorem writeBack_some (h : b.writeBack fresh bytes = some b') :
    (bytes.length = 0 ∧ b' = b) ∨
      ∃ b₁ b₂, bytes.length ≠ 0 ∧ b.checkSpace fresh bytes.length = some b₁ ∧
        b₁.memcpy b₁.writepos_ bytes = some b₂ ∧
        b' = { b₂ with writepos_ := add64 b₂.writepos_ bytes.length } := by
  unfold writeBack at h
  split at h
  next hzero => exact Or.inl ⟨hzero, (Option.some.inj h).symm⟩
  next hzero =>
    obtain ⟨b₁, hspace, h⟩ := Option.bind_eq_some_iff.mp h
    obtain ⟨b₂, hcopy, h⟩ := Option.bind_eq_some_iff.mp h
    exact Or.inr ⟨b₁, b₂, hzero, hspace, hcopy, (Option.some.inj h).symm⟩

theorem writeFront_some {ok : Bool} (h : b.writeFront bytes = some (ok, b')) :
    (ok = false ∧ b' = b) ∨
      (ok = true ∧ bytes.length ≤ b.readpos_ ∧
        { b with readpos_ := b.readpos_ - bytes.length }.memcpy (b.readpos_ - bytes.length) bytes
          = some b') := by
  unfold writeFront at h
  split at h
  · obtain ⟨rfl, rfl⟩ := Prod.mk.inj (Option.some.inj h)
    exact Or.inl ⟨rfl, rfl⟩
  split at h
  · obtain ⟨rfl, rfl⟩ := Prod.mk.inj (Option.some.inj h)
    exact Or.inl ⟨rfl, rfl⟩
  next hle =>
    obtain ⟨b₁, hcopy, h⟩ := Option.bind_eq_some_iff.mp h
    obtain ⟨rfl, rfl⟩ := Prod.mk.inj (Option.some.inj h)
    exact Or.inr ⟨rfl, by omega, hcopy⟩

theorem read_some {out : Option (List UInt8)} (h : b.read n = some (out, b')) :
    (out = none ∧ b' = b) ∨
      (∃ bytes, out = some bytes ∧ load b.storage b.readpos_ n = some bytes) ∧
        add64 b.readpos_ n ≤ b.writepos_ ∧ b' = { b with readpos_ := add64 b.readpos_ n } := by
  unfold read at h
  split at h
  · obtain ⟨rfl, rfl⟩ := Prod.mk.inj (Option.some.inj h)
    exact Or.inl ⟨rfl, rfl⟩
  split at h
  · obtain ⟨rfl, rfl⟩ := Prod.mk.inj (Option.some.inj h)
    exact Or.inl ⟨rfl, rfl⟩
  next hle =>
    obtain ⟨bytes, hload, h⟩ := Option.bind_eq_some_iff.mp h
    obtain ⟨rfl, rfl⟩ := Prod.mk.inj (Option.some.inj h)
    exact Or.inr ⟨⟨bytes, rfl, hload⟩, by omega, rfl⟩

/-! ## Sizes that fit -/

/-- No size that is computed for `need` overflows. -/
def Room (b : Buffer) (need : Nat) : Prop :=
  need ≤ b.writeablesize ∨
    (b.grows need ∧ b.writepos_ + need ≤ nextPow2 (add64 b.writepos_ need)) ∨
    (¬b.grows need ∧ need + b.headreserved_ < 2 ^ 64)

instance (b : Buffer) (need : Nat) : Decidable (b.Room need) :=
  inferInstanceAs (Decidable (_ ∨ _))

theorem nextPow2_lt {x : Nat} (h : x < 2 ^ 64) : nextPow2 x < 2 ^ 64 := by
  unfold nextPow2
  split
  · exact h
  · exact Nat.mod_lt _ (by decide)

theorem le_nextPow2 {x : Nat} (h : x < 2 ^ 63) : x ≤ nextPow2 x := by
  have widen : ∀ y n : Nat, y < 2 ^ 63 → y ≤ y ||| y >>> n ∧ y ||| y >>> n < 2 ^ 63 := by
    intro y n hy
    exact ⟨Nat.left_le_or, Nat.or_lt_two_pow hy ((Nat.shiftRight_le y n).trans_lt hy)⟩
  unfold nextPow2
  split
  · exact Nat.le_refl x
  · obtain ⟨h1, hx1⟩ := widen x 1 h
    dsimp only
    obtain ⟨h2, hx2⟩ := widen _ 2 hx1
    obtain ⟨h3, hx3⟩ := widen _ 4 hx2
    obtain ⟨h4, hx4⟩ := widen _ 8 hx3
    obtain ⟨h5, hx5⟩ := widen _ 16 hx4
    rw [add64_of_lt _ _ (by omega)]
    omega

theorem add64_lt (a c : Nat) : add64 a c < 2 ^ 64 := Nat.mod_lt _ (by decide)

/-- The readable bytes and `need` more fit behind the reserved head. -/
theorem compact_fits (hb : Ordered b) (hgrows : ¬b.grows need)
    (hsum : need + b.headreserved_ < 2 ^ 64) :
    b.headreserved_ + b.size + need ≤ b.capacity_ := by
  have hread := hb.read_le
  have hwrite := hb.write_le
  have hcap := hb.capacity_lt
  unfold grows at hgrows
  rw [add64_of_lt need _ hsum, writeablesize_eq hb, add64_of_lt _ _ (by omega)] at hgrows
  rw [size_eq hb]
  omega

theorem Ordered.checkSpace (hb : Ordered b) (hroom : b.Room need)
    (h : b.checkSpace fresh need = some b') :
    Ordered b' ∧ b'.writepos_ + need ≤ b'.capacity_ ∧ b.capacity_ ≤ b'.capacity_ := by
  have hread := hb.read_le
  have hwrite := hb.write_le
  have hcap := hb.capacity_lt
  have hspace := writeablesize_eq hb
  rcases checkSpace_some h with ⟨hle, rfl⟩ | ⟨hlt, hgrows, h⟩ | ⟨hlt, hgrows, h⟩
  · exact ⟨hb, by omega, Nat.le_refl _⟩
  · obtain ⟨heap, -, -, rfl⟩ := grow_some h
    rcases hroom with hroom | ⟨-, hroom⟩ | ⟨hroom, -⟩
    · omega
    · have hlt' := nextPow2_lt (add64_lt b.writepos_ need)
      refine ⟨⟨hread, ?_, hlt'⟩, hroom, ?_⟩
      · show b.writepos_ ≤ nextPow2 (add64 b.writepos_ need)
        omega
      · show b.capacity_ ≤ nextPow2 (add64 b.writepos_ need)
        omega
    · exact absurd hgrows hroom
  · obtain ⟨-, -, -, -, hcapacity, hr, hw⟩ := compact_some h
    rcases hroom with hroom | ⟨hroom, -⟩ | ⟨-, hroom⟩
    · omega
    · exact absurd hroom hgrows
    · have hfits := compact_fits hb hgrows hroom
      rw [add64_of_lt _ _ (by omega)] at hw
      refine ⟨⟨?_, ?_, ?_⟩, ?_, ?_⟩ <;> omega

/-! ## What can be read -/

def Holds (b : Buffer) (q : List UInt8) : Prop :=
  load b.storage b.readpos_ (b.writepos_ - b.readpos_) = some q

theorem Holds.length_eq (h : Holds b q) : q.length = b.writepos_ - b.readpos_ := length_load h

theorem Holds.readable (h : Holds b q) (hb : Ordered b) : b.readable = q := by
  rw [Buffer.readable, size_eq hb]
  exact (load_some h).2.symm

theorem holds_readable (hb : Ordered b) (hi : Intact b) : Holds b b.readable := by
  have hread := hb.read_le
  have hwrite := hb.write_le
  unfold Intact at hi
  unfold Holds
  rw [load_of_le (by omega), Buffer.readable, size_eq hb]

theorem grow_of_le (fresh : Nat → UInt8) (hold : b.writepos_ ≤ b.storage.length)
    (hnew : b.writepos_ ≤ nextPow2 (add64 b.writepos_ need)) :
    ∃ b', b.grow fresh need = some b' ∧ Intact b' ∧
      load b'.storage 0 b.writepos_ = load b.storage 0 b.writepos_ ∧
      b'.headreserved_ = b.headreserved_ ∧ b'.readpos_ = b.readpos_ ∧ b'.writepos_ = b.writepos_ := by
  have hload : load b.storage 0 b.writepos_ = some (b.storage.take b.writepos_) := by
    rw [load_of_le (by omega), List.drop_zero]
  have hlen := length_load hload
  obtain ⟨heap, hstore⟩ : ∃ heap, store ((List.range (nextPow2 (add64 b.writepos_ need))).map fresh)
      0 (b.storage.take b.writepos_) = some heap := ⟨_, store_of_le (by
    rw [List.length_map, List.length_range]
    omega)⟩
  refine ⟨{ b with heap_data_ := some heap, capacity_ := nextPow2 (add64 b.writepos_ need) },
    ?_, ?_, ?_, rfl, rfl, rfl⟩
  · unfold grow
    simp only [Option.bind_eq_bind, hload, Option.bind_some, hstore]
  · have := length_store hstore
    rw [List.length_map, List.length_range] at this
    exact this
  · have hsame := load_store hstore
    rw [hlen] at hsame
    rw [hload]
    exact hsame

theorem compact_of_le (hold : b.readpos_ + b.size ≤ b.storage.length)
    (hnew : b.headreserved_ + b.size ≤ b.storage.length) :
    ∃ b', b.compact = some b' ∧ b'.storage.length = b.storage.length ∧
      load b'.storage b.headreserved_ b.size = load b.storage b.readpos_ b.size ∧
      b'.capacity_ = b.capacity_ ∧ b'.headreserved_ = b.headreserved_ ∧
      b'.readpos_ = b.headreserved_ ∧ b'.writepos_ = add64 b.headreserved_ b.size := by
  have hload := load_of_le hold
  have hlen := length_load hload
  by_cases hzero : b.size = 0
  · refine ⟨{ b with readpos_ := b.headreserved_, writepos_ := add64 b.headreserved_ b.size },
      ?_, rfl, ?_, rfl, rfl, rfl, rfl⟩
    · unfold compact moveReadable
      rw [if_neg (not_not.mpr hzero)]
      rfl
    · show load b.storage _ _ = _
      rw [hzero, load_zero (by omega), load_zero (by omega)]
  · obtain ⟨moved, hcopy, hstore, hsame⟩ := b.memcpy_of_le
      (show b.headreserved_ + ((b.storage.drop b.readpos_).take b.size).length ≤ b.storage.length by
        omega)
    refine ⟨{ moved with readpos_ := b.headreserved_, writepos_ := add64 b.headreserved_ b.size },
      ?_, ?_, ?_, hsame.capacity, hsame.head, rfl, rfl⟩
    · unfold compact moveReadable
      simp only [Option.bind_eq_bind, if_pos hzero, hload, Option.bind_some, hcopy]
    · exact length_store hstore
    · have := load_store hstore
      rw [hload, ← this, hlen]
      rfl

/-- Space is found, and nothing that can be read is lost. -/
theorem Holds.checkSpace (fresh : Nat → UInt8) (hq : Holds b q) (hb : Ordered b)
    (hi : Intact b) (hroom : b.Room need) :
    ∃ b', b.checkSpace fresh need = some b' ∧ Intact b' ∧ Holds b' q ∧
      b'.headreserved_ = b.headreserved_ ∧
      (b'.readpos_ = b.readpos_ ∧ b'.writepos_ = b.writepos_ ∨
        b'.readpos_ = b.headreserved_ ∧ b'.writepos_ = b.headreserved_ + q.length) := by
  have hread := hb.read_le
  have hwrite := hb.write_le
  have hcap := hb.capacity_lt
  have hsize := size_eq hb
  have hlen := hq.length_eq
  unfold Intact at hi
  unfold Buffer.checkSpace
  by_cases hneed : b.writeablesize ≥ need
  · rw [if_pos hneed]
    exact ⟨b, rfl, hi, hq, rfl, Or.inl ⟨rfl, rfl⟩⟩
  rw [if_neg hneed]
  by_cases hgrows : b.grows need
  · rw [if_pos hgrows]
    rcases hroom with hroom | ⟨-, hroom⟩ | ⟨hroom, -⟩
    · exact absurd hroom hneed
    · obtain ⟨b', hgrow, hi', hload, hhead, hr, hw⟩ :=
        grow_of_le fresh (show b.writepos_ ≤ b.storage.length by omega)
          (show b.writepos_ ≤ nextPow2 (add64 b.writepos_ need) by omega)
      refine ⟨b', hgrow, hi', ?_, hhead, Or.inl ⟨hr, hw⟩⟩
      have hsplit : b.writepos_ = b.readpos_ + (b.writepos_ - b.readpos_) := by omega
      have hall := load_of_le (show 0 + b.writepos_ ≤ b.storage.length by omega)
      rw [hall, hsplit] at hload
      have hback' := load_back hload
      rw [hsplit] at hall
      have hback := load_back hall
      unfold Holds at hq ⊢
      rw [Nat.zero_add] at hback hback'
      rw [hr, hw, hback', ← hback, hq]
    · exact absurd hgrows hroom
  · rw [if_neg hgrows]
    rcases hroom with hroom | ⟨hroom, -⟩ | ⟨-, hroom⟩
    · exact absurd hroom hneed
    · exact absurd hroom hgrows
    · have hfits := compact_fits hb hgrows hroom
      obtain ⟨b', hcompact, hlength, hload, hcapacity, hhead, hr, hw⟩ :=
        compact_of_le (b := b) (by omega) (by omega)
      rw [add64_of_lt _ _ (by omega)] at hw
      refine ⟨b', hcompact, by unfold Intact; omega, ?_, hhead, Or.inr ⟨hr, by omega⟩⟩
      unfold Holds at hq ⊢
      rw [hr, hw, Nat.add_sub_cancel_left, hload, hsize, hq]

end HappyServer.Buffer
