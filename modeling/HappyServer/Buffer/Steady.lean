import HappyServer.Buffer.Queue

/-!
# What every operation keeps

`Steady`: the positions are in order, the storage is as large as `capacity_`, and no position was set
below the reserved head.

    Steady b → ReservesInside b op → exec fresh b op = some (out, b') → Steady b'       (Steady.exec)

Sizes may overflow: an operation that then copies from or to outside the storage has no result.
-/

namespace HappyServer.Buffer

open Block Word

variable {fresh : Nat → UInt8} {b b' : Buffer} {need : Nat} {data : List UInt8}

structure Steady (b : Buffer) : Prop extends Ordered b where
  intact : Intact b
  head_le : b.headreserved_ ≤ b.writepos_

theorem Steady.flag (h : Steady b) (flag : UInt32) : Steady { b with flag_ := flag } :=
  ⟨⟨h.read_le, h.write_le, h.capacity_lt⟩, h.intact, h.head_le⟩

/-- A buffer with nothing between its positions. -/
theorem steady_empty (hi : Intact b) (hcap : b.capacity_ < 2 ^ 64) (hhead : b.headreserved_ ≤ b.capacity_)
    (hr : b.readpos_ = b.headreserved_) (hw : b.writepos_ = b.headreserved_) : Steady b :=
  ⟨⟨by omega, by omega, hcap⟩, hi, by omega⟩

theorem steady_blank {headreserved : Nat} (h : headreserved ≤ STACK_CAPACITY) :
    Steady (blank headreserved) :=
  steady_empty List.length_replicate (show STACK_CAPACITY < 2 ^ 64 by decide) h rfl rfl

theorem Steady.checkSpace (h : Steady b) (hrun : b.checkSpace fresh need = some b') : Steady b' := by
  have hread := h.read_le
  have hwrite := h.write_le
  have hcap := h.capacity_lt
  have hhead := h.head_le
  have hi := h.intact
  unfold Intact at hi
  rcases checkSpace_some hrun with ⟨-, rfl⟩ | ⟨-, -, hgrow⟩ | ⟨-, -, hcompact⟩
  · exact h
  · obtain ⟨heap, hstore, hold, rfl⟩ := grow_some hgrow
    have hlen := length_store hstore
    obtain ⟨hle, -⟩ := store_some hstore
    rw [List.length_map, List.length_range] at hle hlen
    rw [List.length_take, Nat.min_eq_left hold] at hle
    exact ⟨⟨hread, by dsimp only; omega, nextPow2_lt (add64_lt _ _)⟩, hlen, hhead⟩
  · obtain ⟨hmoved, hzero, -, hhead', hcapacity, hr, hw⟩ := compact_some hcompact
    have hsize := size_eq h.toOrdered
    have hfits : b.headreserved_ + b.size ≤ b.capacity_ ∧ b'.storage.length = b.storage.length := by
      by_cases h0 : b.size = 0
      · rw [hzero h0]
        omega
      · obtain ⟨bytes, hload, hstore⟩ := hmoved h0
        obtain ⟨hle, -⟩ := store_some hstore
        have := length_load hload
        have := length_store hstore
        omega
    rw [add64_of_lt _ _ (by omega)] at hw
    exact ⟨⟨by omega, by omega, by omega⟩, by unfold Intact; omega, by omega⟩

theorem Steady.memcpy {pos : Nat} (h : Steady b) (hrun : b.memcpy pos data = some b') :
    Steady b' ∧ SameFields b b' ∧ pos + data.length ≤ b'.capacity_ := by
  obtain ⟨hstore, hsame⟩ := memcpy_some hrun
  obtain ⟨hle, -⟩ := store_some hstore
  have hlen := length_store hstore
  have hi := h.intact
  have hread := h.read_le
  have hwrite := h.write_le
  have hcap := h.capacity_lt
  have hhead := h.head_le
  have hh := hsame.head
  have hc := hsame.capacity
  have hr := hsame.read
  have hw := hsame.write
  unfold Intact at hi
  exact ⟨⟨⟨by omega, by omega, by omega⟩, by unfold Intact; omega, by omega⟩, hsame, by omega⟩

theorem Steady.init {capacity headreserved : Nat} (h : Steady b) (hinside : headreserved ≤ b.capacity_)
    (hrun : b.init fresh capacity headreserved = some b') : Steady b' := by
  have hreserved : Steady (b.reserve headreserved) :=
    steady_empty h.intact h.capacity_lt hinside rfl rfl
  obtain ⟨b₁, hspace, hb'⟩ := Option.bind_eq_some_iff.mp hrun
  obtain rfl := Option.some.inj hb'
  exact (hreserved.checkSpace hspace).flag 0

theorem Steady.make {capacity headreserved : Nat} (h : headreserved ≤ STACK_CAPACITY)
    (hrun : make fresh capacity headreserved = some b) : Steady b := by
  unfold Buffer.make at hrun
  dsimp only at hrun
  split at hrun
  · exact (steady_blank h).checkSpace hrun
  · obtain rfl := Option.some.inj hrun
    exact steady_blank h

theorem Steady.writeBack (h : Steady b) (hrun : b.writeBack fresh data = some b') : Steady b' := by
  obtain ⟨-, rfl⟩ | ⟨b₁, b₂, -, hspace, hcopy, rfl⟩ := writeBack_some hrun
  · exact h
  · obtain ⟨h₂, hsame, hle⟩ := (h.checkSpace hspace).memcpy hcopy
    have hread := h₂.read_le
    have hwrite := h₂.write_le
    have hcap := h₂.capacity_lt
    have hhead := h₂.head_le
    have hw := hsame.write
    have hadd : add64 b₂.writepos_ data.length = b₂.writepos_ + data.length :=
      add64_of_lt _ _ (by omega)
    exact ⟨⟨by dsimp only; omega, by dsimp only; omega, hcap⟩, h₂.intact, by dsimp only; omega⟩

theorem Steady.writeFront {ok : Bool} (h : Steady b) (hrun : b.writeFront data = some (ok, b')) :
    Steady b' := by
  obtain ⟨-, rfl⟩ | ⟨-, hle, hcopy⟩ := writeFront_some hrun
  · exact h
  · have hread := h.read_le
    have hback : Steady { b with readpos_ := b.readpos_ - data.length } :=
      ⟨⟨by dsimp only; omega, h.write_le, h.capacity_lt⟩, h.intact, h.head_le⟩
    exact (hback.memcpy hcopy).1

theorem Steady.read {n : Nat} {out : Option (List UInt8)} (h : Steady b)
    (hrun : b.read n = some (out, b')) : Steady b' := by
  obtain ⟨-, rfl⟩ | ⟨-, hle, rfl⟩ := read_some hrun
  · exact h
  · exact ⟨⟨hle, h.write_le, h.capacity_lt⟩, h.intact, h.head_le⟩

theorem Steady.seek {offset : Int} (h : Steady b) : Steady (b.seek offset .Current) := by
  refine ⟨⟨?_, h.write_le, h.capacity_lt⟩, h.intact, h.head_le⟩
  unfold Buffer.seek
  dsimp only
  split <;> omega

theorem Steady.clear (h : Steady b) : Steady b.clear :=
  steady_empty h.intact h.capacity_lt (Nat.le_trans h.head_le h.write_le) rfl rfl

theorem Steady.exec {op : Op} {out : Output} (h : Steady b) (hop : op.OnQueue)
    (hinside : ReservesInside b op) (hrun : exec fresh b op = some (out, b')) : Steady b' := by
  cases op with
  | init capacity headreserved =>
    obtain ⟨b₁, hsome, heq⟩ := Option.map_eq_some_iff.mp hrun
    obtain ⟨-, rfl⟩ := Prod.mk.inj heq
    exact h.init hinside hsome
  | writeBack data =>
    obtain ⟨b₁, hsome, heq⟩ := Option.map_eq_some_iff.mp hrun
    obtain ⟨-, rfl⟩ := Prod.mk.inj heq
    exact h.writeBack hsome
  | writeFront data =>
    obtain ⟨⟨ok, b₁⟩, hsome, heq⟩ := Option.map_eq_some_iff.mp hrun
    obtain ⟨-, rfl⟩ := Prod.mk.inj heq
    exact h.writeFront hsome
  | read n =>
    obtain ⟨⟨bytes, b₁⟩, hsome, heq⟩ := Option.map_eq_some_iff.mp hrun
    obtain ⟨-, rfl⟩ := Prod.mk.inj heq
    exact h.read hsome
  | seek offset s =>
    obtain ⟨-, rfl⟩ := hop
    obtain ⟨-, rfl⟩ := Prod.mk.inj (Option.some.inj hrun)
    exact h.seek
  | clear =>
    obtain ⟨-, rfl⟩ := Prod.mk.inj (Option.some.inj hrun)
    exact h.clear
  | setFlag v =>
    obtain ⟨-, rfl⟩ := Prod.mk.inj (Option.some.inj hrun)
    exact h.flag _
  | clearFlag v =>
    obtain ⟨-, rfl⟩ := Prod.mk.inj (Option.some.inj hrun)
    exact h.flag _
  | offsetWritepos offset => exact hop.elim
  | checkSpace need =>
    obtain ⟨b₁, hsome, heq⟩ := Option.map_eq_some_iff.mp hrun
    obtain ⟨-, rfl⟩ := Prod.mk.inj heq
    exact h.checkSpace hsome
  | movedFrom => exact hop.elim

end HappyServer.Buffer
