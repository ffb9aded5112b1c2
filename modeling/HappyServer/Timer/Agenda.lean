import Mathlib.Tactic.Abel
import Mathlib.Tactic.NormNum
import HappyServer.Lib.Rotation
import HappyServer.Timer.Wheel

/-!
# What the wheels stand for: an agenda

The wheels hold keys in slots; what they mean is a multiset of entries
`(t, id)`, "tick `t` calls `on_timer(id)`" (ticks counted from 1, from construction).
`agenda` reads it off the wheels: wheel `i` has been visited `c` times, so a key in
its slot `j` is reached at visit `v = visit Size c j`, and `dueFrom` follows its
bytes down to wheel 0.

* `Aligned c wheels`: the heads are those of a timer that has processed `c` ticks.
* `insertLoop_agenda`, `insertTimer_agenda`: `insert_timer` adds at most one entry;
  `armDue` is the tick it adds it for, `Stored` whether there is one.
* `cascade_agenda`: the cascades of `update` move keys and change no entry.
-/

namespace HappyServer.Timer

open Word Rotation TimerWheel

variable {Size : Nat}

/-! ## Keys -/

theorem slots_or (slots slot i : Nat) (h : slots < 2 ^ (i * 8)) :
    slots ||| slot <<< (i * 8) = slots + slot * 2 ^ (i * 8) := by
  rw [Nat.or_comm, Nat.shiftLeft_eq, Nat.mul_comm slot, ← Nat.two_pow_add_eq_or_of_lt h, Nat.add_comm]

theorem makeKey_eq (id : TimerId) (slots : Nat) (h : slots < 2 ^ 32) :
    makeKey id slots = id.toNat * 2 ^ 32 + slots := by
  unfold makeKey TIMERID_SHIT
  rw [Nat.shiftLeft_eq, Nat.mul_comm, ← Nat.two_pow_add_eq_or_of_lt h]

theorem getSlot_eq (key i : Nat) : getSlot key i = key / 2 ^ (i * 8) % 256 := by
  unfold getSlot
  rw [Nat.shiftRight_eq_div_pow, show (0xFF : Nat) = 2 ^ 8 - 1 from rfl, Nat.and_two_pow_sub_one_eq_mod]

theorem keyId_makeKey (id : TimerId) (slots : Nat) (h : slots < 2 ^ 32) :
    keyId (makeKey id slots) = id := by
  unfold keyId TIMERID_SHIT
  rw [makeKey_eq id slots h, Nat.shiftRight_eq_div_pow,
    show (id.toNat * 2 ^ 32 + slots) / 2 ^ 32 = id.toNat by omega, UInt32.ofNat_toNat]

/-- Byte `i` of a key is the slot of wheel `i`. -/
theorem getSlot_makeKey (id : TimerId) (slots low slot i : Nat) (hi : i < 4) (hslot : slot < 256)
    (hslots : slots < 2 ^ 32) (hlow : low < 2 ^ (i * 8))
    (h : slots % 2 ^ ((i + 1) * 8) = low + slot * 2 ^ (i * 8)) :
    getSlot (makeKey id slots) i = slot := by
  rw [getSlot_eq, makeKey_eq id slots hslots]
  have hcases : i = 0 ∨ i = 1 ∨ i = 2 ∨ i = 3 := by omega
  rcases hcases with rfl | rfl | rfl | rfl <;> norm_num at * <;> omega

/-! ## The agenda -/

/-- The visit to wheel 0 at which a key comes up that visit `v` to wheel `i` takes
out: its bytes name the slots it falls to. -/
def dueFrom (Size : Nat) : (i v key : Nat) → Nat
  | 0, v, _ => v
  | i + 1, v, key => dueFrom Size i (Size * (v + 1) + getSlot key i) key

def entry (Size i v key : Nat) : Nat × TimerId := (dueFrom Size i v key + 1, keyId key)

/-- Slot `j` of wheel `i`, visited `c` times. -/
def slotAgenda (Size i c j : Nat) (keys : List Nat) : Multiset (Nat × TimerId) :=
  Multiset.map (entry Size i (visit Size c j)) keys

def wheelAgenda (i c : Nat) (w : TimerWheel Size) : Multiset (Nat × TimerId) :=
  gather Size (slotAgenda Size i c) w.array

/-- Wheel `i` visited `c` times, the wheels after it. -/
def agenda : (i c : Nat) → List (TimerWheel Size) → Multiset (Nat × TimerId)
  | _, _, [] => 0
  | i, c, w :: ws => wheelAgenda i c w + agenda (i + 1) (c / Size) ws

/-- The heads after `c` visits to the first wheel. -/
def Aligned : (c : Nat) → List (TimerWheel Size) → Prop
  | _, [] => True
  | c, w :: ws => w.head = c % Size ∧ Aligned (c / Size) ws

/-- Every key of wheel `i` and above names slots that exist. -/
def Decodable : (i : Nat) → List (TimerWheel Size) → Prop
  | _, [] => True
  | i, w :: ws => (∀ j key, key ∈ w.array j → ∀ l < i, getSlot key l < Size) ∧ Decodable (i + 1) ws

theorem set_array (w : TimerWheel Size) (slot j : Nat) (keys : List Nat) :
    (w.set slot keys).array j = if j = slot then keys else w.array j := Function.update_apply _ _ _ _

@[simp] theorem slotAgenda_nil (i c j : Nat) : slotAgenda Size i c j [] = 0 := rfl

@[simp] theorem slotAgenda_cons (i c j key : Nat) (keys : List Nat) :
    slotAgenda Size i c j (key :: keys) =
      {entry Size i (visit Size c j) key} + slotAgenda Size i c j keys := by
  simp [slotAgenda, Multiset.singleton_add]

theorem slotAgenda_append (i c j : Nat) (keys keys' : List Nat) :
    slotAgenda Size i c j (keys ++ keys') =
      slotAgenda Size i c j keys + slotAgenda Size i c j keys' := by
  simp [slotAgenda, ← Multiset.coe_add]

theorem wheelAgenda_set (i c j : Nat) (w : TimerWheel Size) (keys : List Nat) (hj : j < Size) :
    wheelAgenda i c (w.set j keys) + slotAgenda Size i c j (w.array j) =
      wheelAgenda i c w + slotAgenda Size i c j keys :=
  gather_update _ _ _ _ hj

@[simp] theorem wheelAgenda_popFront (i c : Nat) (w : TimerWheel Size) :
    wheelAgenda i c w.popFront = wheelAgenda i c w := rfl

theorem wheelAgenda_pushBack (i c j key : Nat) (w : TimerWheel Size) (hj : j < Size) :
    wheelAgenda i c (w.pushBack j key) = wheelAgenda i c w + {entry Size i (visit Size c j) key} := by
  have h := wheelAgenda_set i c j w (w.array j ++ [key]) hj
  rw [slotAgenda_append, slotAgenda_cons, slotAgenda_nil, add_zero,
    add_comm (slotAgenda Size i c j (w.array j)), ← add_assoc] at h
  exact add_right_cancel h

theorem wheelAgenda_pushFront (i c j key : Nat) (w : TimerWheel Size) (hj : j < Size) :
    wheelAgenda i c (w.pushFront j key) = wheelAgenda i c w + {entry Size i (visit Size c j) key} := by
  have h := wheelAgenda_set i c j w (key :: w.array j) hj
  rw [slotAgenda_cons, ← add_assoc] at h
  exact add_right_cancel h

/-- Taking the first key out of a slot. -/
theorem wheelAgenda_pop (i c j key : Nat) (keys : List Nat) (w : TimerWheel Size) (hj : j < Size)
    (hw : w.array j = key :: keys) :
    wheelAgenda i c w = wheelAgenda i c (w.set j keys) + {entry Size i (visit Size c j) key} := by
  have h := wheelAgenda_set i c j w keys hj
  rw [hw, slotAgenda_cons, ← add_assoc] at h
  exact (add_right_cancel h).symm

/-- Emptying a slot. -/
theorem wheelAgenda_empty (i c j : Nat) (w : TimerWheel Size) (hj : j < Size) :
    wheelAgenda i c w = wheelAgenda i c (w.set j []) + slotAgenda Size i c j (w.array j) := by
  have h := wheelAgenda_set i c j w [] hj
  rw [slotAgenda_nil, add_zero] at h
  exact h.symm

/-- A visit to an empty slot changes no entry. -/
theorem wheelAgenda_succ (hS : 0 < Size) (i c : Nat) (w : TimerWheel Size)
    (hw : w.array (c % Size) = []) : wheelAgenda i (c + 1) w = wheelAgenda i c w := by
  apply gather_congr
  intro j hj
  by_cases hjc : j = c % Size
  · rw [hjc, hw]; rfl
  · unfold slotAgenda
    rw [visit_succ hS c j hj hjc]

/-- An entry comes up no earlier than the visits already made. -/
theorem lt_of_mem_agenda (hS : 0 < Size) (ws : List (TimerWheel Size)) :
    ∀ i c lo, (∀ v key, c ≤ v → lo ≤ dueFrom Size i v key) →
      ∀ e ∈ agenda i c ws, lo < e.1 := by
  induction ws with
  | nil => intro i c lo _ e he; simp [agenda] at he
  | cons w ws ih =>
    intro i c lo h e he
    rcases Multiset.mem_add.mp he with he | he
    · obtain ⟨j, hj, hm⟩ := (mem_gather _ _ _).mp he
      obtain ⟨key, -, rfl⟩ := Multiset.mem_map.mp hm
      exact Nat.lt_succ_of_le (h _ key (le_visit c j))
    · refine ih (i + 1) (c / Size) lo (fun v key hv => h _ key ?_) e he
      have h1 := Nat.lt_mul_div_succ c hS
      have h2 : Size * (c / Size + 1) ≤ Size * (v + 1) := Nat.mul_le_mul_left _ (by omega)
      omega

/-- The slot under the head comes first, everything else later. -/
theorem agenda_front (hS : 0 < Size) (c : Nat) (w : TimerWheel Size) (ws : List (TimerWheel Size)) :
    ∃ later, agenda 0 c (w :: ws) =
        later + ((w.array (c % Size)).map fun key => (c + 1, keyId key) : List _) ∧
      ∀ e ∈ later, c + 1 < e.1 := by
  have hslot : c % Size < Size := Nat.mod_lt _ hS
  refine ⟨wheelAgenda 0 c (w.set (c % Size) []) + agenda 1 (c / Size) ws, ?_, ?_⟩
  · have hnow : slotAgenda Size 0 c (c % Size) (w.array (c % Size)) =
        ((w.array (c % Size)).map fun key => (c + 1, keyId key) : List _) := by
      unfold slotAgenda
      rw [visit_self hS, Multiset.map_coe]
      rfl
    rw [agenda, wheelAgenda_empty 0 c _ w hslot, hnow]
    exact add_right_comm _ _ _
  · intro e he
    rcases Multiset.mem_add.mp he with he | he
    · obtain ⟨j, hj, hm⟩ := (mem_gather _ _ _).mp he
      obtain ⟨key, hkey, rfl⟩ := Multiset.mem_map.mp hm
      have hne : j ≠ c % Size := by
        rintro rfl
        simp [set_array] at hkey
      have h1 := le_visit (B := Size) c j
      have h2 := mt (visit_eq_self_iff hS c j hj).mp hne
      show c + 1 < visit Size c j + 1
      omega
    · refine lt_of_mem_agenda hS ws 1 (c / Size) (c + 1) (fun v key hv => ?_) e he
      have h1 := Nat.lt_mul_div_succ c hS
      have h2 : Size * (c / Size + 1) ≤ Size * (v + 1) := Nat.mul_le_mul_left _ (by omega)
      show c + 1 ≤ Size * (v + 1) + getSlot key 0
      omega

/-! ## `insert_timer` -/

/-- One round of the loop.  The heads say `p` visits; waiting `m` of them from
there means visit `p + m - 1`. -/
theorem insertLoop_cons (id : TimerId) (i slots m p : Nat) (w : TimerWheel Size)
    (rest : List (TimerWheel Size)) (hS : 2 ≤ Size) (hw : w.head = p % Size) (h1 : 1 ≤ m)
    (hm : m + Size ≤ 2 ^ 64) (hslots : slots < 2 ^ (i * 8)) :
    insertLoop id i slots m (w :: rest) =
      if (p + m - 1) / Size = p / Size then
        w.pushBack ((p + m - 1) % Size)
          (makeKey id (slots + (p + m - 1) % Size * 2 ^ (i * 8))) :: rest
      else
        w :: insertLoop id (i + 1) (slots + (p + m - 1) % Size * 2 ^ (i * 8))
          ((p + m - 1) / Size - p / Size) rest := by
  have hp : p % Size < Size := Nat.mod_lt _ (by omega)
  have hy : p + m - 1 = Size * (p / Size) + (p % Size + m - 1) := by
    have := Nat.div_add_mod p Size
    omega
  have hslot : (p + m - 1) % Size = (p % Size + m - 1) % Size := by
    rw [hy, Nat.mul_add_mod]
  have hquot : (p + m - 1) / Size = p / Size + (p % Size + m - 1) / Size := by
    rw [hy, Nat.mul_add_div (by omega)]
  have hdm := Nat.div_add_mod (p % Size + m - 1) Size
  generalize (p % Size + m - 1) / Size = q at hquot hdm
  have hle : (p % Size + m - 1) % Size ≤ p % Size + m - 1 := Nat.mod_le _ _
  have hcount : p % Size + m - (p % Size + m - 1) % Size = Size * q + 1 := by omega
  have hcarry : (Size * q + 1) / Size = q := by
    rw [Nat.mul_add_div (by omega), Nat.div_eq_of_lt (by omega), Nat.add_zero]
  have hstop : Size * q + 1 < Size ↔ p / Size + q = p / Size := by
    constructor
    · intro h
      rcases Nat.eq_zero_or_pos q with h0 | h0
      · omega
      · have := Nat.le_mul_of_pos_right Size h0
        omega
    · intro h
      rw [show q = 0 by omega]
      omega
  rw [insertLoop]
  simp only [nextSlot, TimerWheel.size, hw]
  rw [add64_of_lt _ _ (by omega), Nat.add_comm m, sub64_of_le _ 1 (by omega) (by omega),
    sub64_of_le _ _ (by omega) (by omega), hcount, hcarry, slots_or _ _ _ hslots, hquot, ← hslot]
  simp only [hstop, Nat.add_sub_cancel_left]

/-- Some wheel takes the key of visit `y`, of `L` wheels visited `c` times. -/
def Stored (Size : Nat) : (L c y : Nat) → Prop
  | 0, _, _ => False
  | L + 1, c, y => y / Size = c / Size ∨ Stored Size L (c / Size) (y / Size - 1)

instance decidableStored (Size : Nat) : (L c y : Nat) → Decidable (Stored Size L c y)
  | 0, _, _ => inferInstanceAs (Decidable False)
  | L + 1, c, y =>
    have := decidableStored Size L (c / Size) (y / Size - 1)
    inferInstanceAs (Decidable (_ ∨ _))

/-- The low `i` bytes `slots` of a key of `id` name slots that exist, and from visit
`y` of wheel `i` they decode to visit `x` of wheel 0, whatever the bytes above. -/
def Decodes (Size : Nat) (id : TimerId) (i slots y x : Nat) : Prop :=
  ∀ s, s < 2 ^ 32 → s % 2 ^ (i * 8) = slots →
    (∀ l < i, getSlot (makeKey id s) l < Size) ∧ dueFrom Size i y (makeKey id s) = x

theorem decodes_zero (id : TimerId) (y : Nat) : Decodes Size id 0 0 y y :=
  fun _ _ _ => ⟨fun l hl => absurd hl (Nat.not_lt_zero l), rfl⟩

theorem two_pow_byte_succ (i : Nat) : 2 ^ ((i + 1) * 8) = 256 * 2 ^ (i * 8) := by
  rw [Nat.add_mul, Nat.pow_add]; omega

theorem byte_lt (slots slot i : Nat) (hslot : slot < 256) (hslots : slots < 2 ^ (i * 8)) :
    slots + slot * 2 ^ (i * 8) < 2 ^ ((i + 1) * 8) := by
  have h1 := two_pow_byte_succ i
  have h2 := Nat.mul_le_mul_right (2 ^ (i * 8)) (show slot ≤ 255 by omega)
  omega

/-- Passing visit `y` up to the next wheel writes byte `i`. -/
theorem decodes_succ (hS : 0 < Size) (hS' : Size < 256) (id : TimerId) (i slots y x : Nat)
    (hi : i < 4) (hslots : slots < 2 ^ (i * 8)) (hy : 0 < y / Size)
    (h : Decodes Size id i slots y x) :
    Decodes Size id (i + 1) (slots + y % Size * 2 ^ (i * 8)) (y / Size - 1) x := by
  intro s hs hmod
  have hslot : y % Size < Size := Nat.mod_lt _ hS
  have hbyte := getSlot_makeKey id s slots _ i hi (by omega) hs hslots hmod
  have hlow : s % 2 ^ (i * 8) = slots := by
    rw [two_pow_byte_succ] at hmod
    have := congrArg (· % 2 ^ (i * 8)) hmod
    simp only [Nat.add_mul_mod_self_right, Nat.mod_eq_of_lt hslots] at this
    rwa [Nat.mod_mod_of_dvd _ (Nat.dvd_mul_left _ _)] at this
  obtain ⟨h1, h2⟩ := h s hs hlow
  refine ⟨fun l hl => ?_, ?_⟩
  · rcases Nat.lt_succ_iff_lt_or_eq.mp hl with hl | rfl
    · exact h1 l hl
    · rw [hbyte]; exact hslot
  · unfold dueFrom
    rw [hbyte, Nat.sub_add_cancel hy, Nat.div_add_mod]
    exact h2

theorem decodable_pushBack (i j key : Nat) (w : TimerWheel Size) (ws : List (TimerWheel Size))
    (hkey : ∀ l < i, getSlot key l < Size) (h : Decodable i (w :: ws)) :
    Decodable i (w.pushBack j key :: ws) := by
  refine ⟨fun j' key' hmem => ?_, h.2⟩
  by_cases hj : j' = j
  · subst hj
    simp only [pushBack, TimerWheel.set, Function.update_self, List.mem_append,
      List.mem_singleton] at hmem
    rcases hmem with hmem | rfl
    · exact h.1 _ _ hmem
    · exact hkey
  · simp only [pushBack, TimerWheel.set, Function.update_of_ne hj] at hmem
    exact h.1 _ _ hmem

/-- What the next wheels are to count, where this one does not take the key. -/
theorem carry_bounds {Size m c : Nat} (hS : 0 < Size) (h1 : 1 ≤ m) (hm : m + Size ≤ 2 ^ 64)
    (hq : (c + m - 1) / Size ≠ c / Size) :
    c / Size < (c + m - 1) / Size ∧ (c + m - 1) / Size - c / Size + Size ≤ 2 ^ 64 ∧
      c / Size + ((c + m - 1) / Size - c / Size) - 1 = (c + m - 1) / Size - 1 := by
  have hlt : c / Size < (c + m - 1) / Size :=
    Nat.lt_of_le_of_ne (Nat.div_le_div_right (by omega)) (Ne.symm hq)
  have hle : (c + m - 1) / Size ≤ c / Size + m := by
    rw [← Nat.add_mul_div_right c m hS]
    apply Nat.div_le_div_right
    have := Nat.le_mul_of_pos_right m hS
    omega
  refine ⟨hlt, by omega, by omega⟩

/-- **The loop of `insert_timer`**, from wheel `i` on: at most one entry more, for
the visit `x` that the slots decode to. -/
theorem insertLoop_agenda (hS : 2 ≤ Size) (hS' : Size < 256) (id : TimerId)
    (ws : List (TimerWheel Size)) :
    ∀ i slots m c x, Aligned c ws → Decodable i ws → i + ws.length ≤ 4 → 1 ≤ m →
      m + Size ≤ 2 ^ 64 → slots < 2 ^ (i * 8) → Decodes Size id i slots (c + m - 1) x →
      (agenda i c (insertLoop id i slots m ws) =
        agenda i c ws + if Stored Size ws.length c (c + m - 1) then {(x + 1, id)} else 0) ∧
      Decodable i (insertLoop id i slots m ws) := by
  induction ws with
  | nil => intro i slots m c x _ _ _ _ _ _ _; simp [insertLoop, agenda, Stored, Decodable]
  | cons w ws ih =>
    intro i slots m c x hal hdec hi h1 hm hslots hx
    obtain ⟨hw, hal⟩ := hal
    simp only [List.length_cons] at hi
    have hslot : (c + m - 1) % Size < Size := Nat.mod_lt _ (by omega)
    have hnew := byte_lt slots ((c + m - 1) % Size) i (by omega) hslots
    have htop : 2 ^ ((i + 1) * 8) ≤ 2 ^ 32 := Nat.pow_le_pow_right (by omega) (by omega)
    rw [insertLoop_cons id i slots m c w ws hS hw h1 hm hslots]
    by_cases hq : (c + m - 1) / Size = c / Size
    · -- this wheel takes the key
      rw [if_pos hq, if_pos (show Stored Size (w :: ws).length c (c + m - 1) from Or.inl hq)]
      have hv : visit Size c ((c + m - 1) % Size) = c + m - 1 := by
        apply visit_of_window _ _ (by omega)
        have h2 := Nat.div_add_mod (c + m - 1) Size
        have h3 := Nat.div_add_mod c Size
        rw [hq] at h2
        omega
      obtain ⟨hlow, hdue⟩ := hx _ (Nat.lt_of_lt_of_le hnew htop)
        (by rw [Nat.add_mul_mod_self_right, Nat.mod_eq_of_lt hslots])
      refine ⟨?_, decodable_pushBack i _ _ w ws hlow hdec⟩
      simp only [agenda, wheelAgenda_pushBack _ _ _ _ _ hslot, hv, entry,
        keyId_makeKey id _ (Nat.lt_of_lt_of_le hnew htop)]
      rw [hdue, add_right_comm]
    · -- the next wheels do
      rw [if_neg hq]
      obtain ⟨hlt, hbound, hup⟩ := carry_bounds (by omega) h1 hm hq
      have hpos : 0 < (c + m - 1) / Size := Nat.lt_of_le_of_lt (Nat.zero_le _) hlt
      have hdx := decodes_succ (by omega) hS' id i slots _ x (by omega) hslots hpos hx
      rw [← hup] at hdx
      obtain ⟨h2, h3⟩ := ih (i + 1) _ ((c + m - 1) / Size - c / Size) (c / Size) x hal hdec.2
        (by omega) (by omega) hbound hnew hdx
      rw [hup] at h2
      refine ⟨?_, hdec.1, h3⟩
      simp only [agenda, List.length_cons, Stored, hq, false_or]
      rw [h2, add_assoc]

theorem insertLoop_heads (id : TimerId) (ws : List (TimerWheel Size)) :
    ∀ i slots m, (insertLoop id i slots m ws).map head = ws.map head := by
  induction ws with
  | nil => intro i slots m; rfl
  | cons w ws ih =>
    intro i slots m
    rw [insertLoop]
    split
    · rfl
    · rw [List.map_cons, List.map_cons, ih]

theorem aligned_congr (ws : List (TimerWheel Size)) :
    ∀ c (ws' : List (TimerWheel Size)), ws'.map head = ws.map head → Aligned c ws → Aligned c ws' := by
  induction ws with
  | nil =>
    intro c ws' h _
    rw [List.map_nil, List.map_eq_nil_iff] at h
    subst h; trivial
  | cons w ws ih =>
    intro c ws' h hal
    cases ws' with
    | nil => simp at h
    | cons w' ws' =>
      rw [List.map_cons, List.map_cons, List.cons.injEq] at h
      exact ⟨by rw [h.1]; exact hal.1, ih _ _ h.2 hal.2⟩

/-- The tick for which `insert_timer` arms when it waits `m` ticks on `L + 1` wheels:
wheel 0 has been visited `c` times, the heads say `p`. -/
def armDue (Size L c p m : Nat) : Option Nat :=
  if (p + m - 1) / Size = p / Size then some (visit Size c ((p + m - 1) % Size) + 1)
  else if Stored Size L (p / Size) ((p + m - 1) / Size - 1) then some (p + m) else none

/-- The entry that arming adds. -/
def armed (due : Option Nat) (id : TimerId) : List (Nat × TimerId) := (due.map (·, id)).toList

/-- `insert_timer` where the head of wheel 0 may be ahead of its visits (within a tick). -/
theorem insertTimer_agenda (hS : 2 ≤ Size) (hS' : Size < 256) (id : TimerId) (d : Int) (c p : Nat)
    (w : TimerWheel Size) (ws : List (TimerWheel Size)) (hal : Aligned p (w :: ws))
    (hdec : Decodable 0 (w :: ws)) (hlen : ws.length ≤ 3) (h1 : 1 ≤ slotCount d)
    (hm : slotCount d + Size ≤ 2 ^ 64) (hcp : c / Size = p / Size) :
    agenda 0 c (insertTimer d id (w :: ws)) =
        agenda 0 c (w :: ws) + armed (armDue Size ws.length c p (slotCount d)) id ∧
      Decodable 0 (insertTimer d id (w :: ws)) := by
  generalize hmd : slotCount d = m at h1 hm
  unfold insertTimer
  rw [hmd, insertLoop_cons id 0 0 m p w ws hS hal.1 h1 hm (by norm_num)]
  have hslot : (p + m - 1) % Size < Size := Nat.mod_lt _ (by omega)
  have hnew := byte_lt 0 ((p + m - 1) % Size) 0 (by omega) (by norm_num)
  have h32 : 0 + (p + m - 1) % Size * 2 ^ (0 * 8) < 2 ^ 32 := by omega
  unfold armDue
  by_cases hq : (p + m - 1) / Size = p / Size
  · rw [if_pos hq, if_pos hq]
    refine ⟨?_, decodable_pushBack 0 _ _ w ws (fun l hl => absurd hl (Nat.not_lt_zero l)) hdec⟩
    simp only [agenda, wheelAgenda_pushBack _ _ _ _ _ hslot, entry, dueFrom, keyId_makeKey id _ h32]
    rw [add_right_comm]
    rfl
  · rw [if_neg hq, if_neg hq]
    have hlt : p / Size < (p + m - 1) / Size :=
      Nat.lt_of_le_of_ne (Nat.div_le_div_right (by omega)) (Ne.symm hq)
    have hmle : (p + m - 1) / Size ≤ p / Size + m := by
      rw [← Nat.add_mul_div_right p m (show 0 < Size by omega)]
      apply Nat.div_le_div_right
      have := Nat.le_mul_of_pos_right m (show 0 < Size by omega)
      omega
    have hup : p / Size + ((p + m - 1) / Size - p / Size) - 1 = (p + m - 1) / Size - 1 := by omega
    have hdx := decodes_succ (by omega) hS' id 0 0 _ _ (by omega) (by norm_num)
      (Nat.lt_of_le_of_lt (Nat.zero_le _) hlt) (decodes_zero id (p + m - 1))
    rw [← hup] at hdx
    obtain ⟨h2, h3⟩ := insertLoop_agenda hS hS' id ws (0 + 1) _ ((p + m - 1) / Size - p / Size)
      (p / Size) _ hal.2 hdec.2 (by omega) (by omega) (by omega) hnew hdx
    refine ⟨?_, hdec.1, h3⟩
    rw [hup] at h2
    simp only [agenda, hcp]
    rw [h2, add_assoc, show p + m - 1 + 1 = p + m by omega]
    congr 2
    split <;> rfl

theorem insertTimer_heads (d : Int) (id : TimerId) (ws : List (TimerWheel Size)) :
    (insertTimer d id ws).map head = ws.map head := insertLoop_heads id ws 0 0 _

/-! ## The cascades of `update` -/

theorem entry_down (i v key : Nat) :
    entry Size i (Size * (v + 1) + getSlot key i) key = entry Size (i + 1) v key := rfl

theorem moveDown_head (i : Nat) (keys : List Nat) :
    ∀ w : TimerWheel Size, (BaseTimer.moveDown i keys w).head = w.head := by
  induction keys with
  | nil => intro w; rfl
  | cons key keys ih => intro w; exact ih (w.pushFront (getSlot key i) key)

/-- Keys taken out at visit `v` of the wheel above keep their entries. -/
theorem moveDown_agenda (i v : Nat) (keys : List Nat) :
    ∀ w : TimerWheel Size, (∀ key ∈ keys, getSlot key i < Size) →
      wheelAgenda i (Size * (v + 1)) (BaseTimer.moveDown i keys w) =
        wheelAgenda i (Size * (v + 1)) w + Multiset.map (entry Size (i + 1) v) keys := by
  induction keys with
  | nil => intro w _; simp [BaseTimer.moveDown]
  | cons key keys ih =>
    intro w h
    have hk : getSlot key i < Size := h key List.mem_cons_self
    have := ih (w.pushFront (getSlot key i) key) (fun key' h' => h key' (List.mem_cons_of_mem _ h'))
    unfold BaseTimer.moveDown at this ⊢
    rw [List.foldl_cons, this, wheelAgenda_pushFront _ _ _ _ _ hk,
      visit_of_dvd _ _ hk (Nat.mul_mod_right _ _), entry_down, add_assoc]
    rfl

theorem mem_moveDown (i : Nat) (keys : List Nat) :
    ∀ (w : TimerWheel Size) j key, key ∈ (BaseTimer.moveDown i keys w).array j →
      key ∈ w.array j ∨ key ∈ keys := by
  induction keys with
  | nil => intro w j key h; exact Or.inl h
  | cons key' keys ih =>
    intro w j key h
    rcases ih _ j key h with h | h
    · by_cases hj : j = getSlot key' i
      · subst hj
        simp only [pushFront, TimerWheel.set, Function.update_self, List.mem_cons] at h
        rcases h with rfl | h
        · exact Or.inr List.mem_cons_self
        · exact Or.inl h
      · simp only [pushFront, TimerWheel.set, Function.update_of_ne hj] at h
        exact Or.inl h
    · exact Or.inr (List.mem_cons_of_mem _ h)

/-- **The cascades.**  Wheel `i` has just made visit `c`, the wheels after it have
not followed: the loop lets them follow and keeps every entry. -/
theorem cascade_agenda (hS : 0 < Size) (ws : List (TimerWheel Size)) :
    ∀ i c (w : TimerWheel Size), 0 < c → w.head = c % Size → Aligned ((c - 1) / Size) ws →
      Decodable i (w :: ws) →
      agenda i c (BaseTimer.cascadeLoop i w ws) =
          wheelAgenda i c w + agenda (i + 1) ((c - 1) / Size) ws ∧
        Aligned c (BaseTimer.cascadeLoop i w ws) ∧ Decodable i (BaseTimer.cascadeLoop i w ws) := by
  induction ws with
  | nil =>
    intro i c w _ hw _ hdec
    exact ⟨rfl, ⟨hw, trivial⟩, hdec⟩
  | cons next ws ih =>
    intro i c w hc hw hal hdec
    rw [BaseTimer.cascadeLoop]
    by_cases hr : c % Size = 0
    · -- wheel `i` came round: its neighbour's front list falls into it
      have hround : w.round = true := by simp [TimerWheel.round, hw, hr]
      rw [hround, Bool.not_true, if_neg Bool.false_ne_true]
      obtain ⟨v, hv⟩ : ∃ v, c = Size * (v + 1) := by
        obtain ⟨k, rfl⟩ := Nat.dvd_of_mod_eq_zero hr
        cases k with
        | zero => simp at hc
        | succ v => exact ⟨v, rfl⟩
      have hup : (c - 1) / Size = v := by
        rw [hv, Nat.mul_succ, Nat.add_sub_assoc hS, Nat.mul_add_div hS,
          Nat.div_eq_of_lt (by omega), Nat.add_zero]
      have hcv : c / Size = v + 1 := by rw [hv, Nat.mul_div_cancel_left _ hS]
      rw [hup] at hal ⊢
      have hslot : next.head < Size := by rw [hal.1]; exact Nat.mod_lt _ hS
      have hkeys : ∀ key ∈ next.front, ∀ l < i + 1, getSlot key l < Size := fun key hk =>
        hdec.2.1 _ key hk
      have hempty : (next.set next.head []).array (v % Size) = [] := by
        rw [← hal.1]; exact Function.update_self _ _ _
      obtain ⟨h1, h2, h3⟩ := ih (i + 1) (v + 1) (next.set next.head []).popFront (Nat.succ_pos v)
        (by simp only [popFront, TimerWheel.set, hal.1, Nat.mod_add_mod]) hal.2
        ⟨fun j key hk => by
          by_cases hj : j = next.head
          · subst hj
            simp [popFront, TimerWheel.set] at hk
          · simp only [popFront, TimerWheel.set, Function.update_of_ne hj] at hk
            exact hdec.2.1 j key hk, hdec.2.2⟩
      refine ⟨?_, ⟨by rw [moveDown_head, hw], by rw [hcv]; exact h2⟩, ?_, h3⟩
      · simp only [agenda, hcv, h1]
        rw [wheelAgenda_popFront, wheelAgenda_succ hS _ _ _ hempty, hv,
          moveDown_agenda i v _ _ (fun key hk => hkeys key hk i (Nat.lt_succ_self i)),
          wheelAgenda_empty (i + 1) v next.head next hslot]
        rw [show slotAgenda Size (i + 1) v next.head (next.array next.head) =
          Multiset.map (entry Size (i + 1) v) next.front by
            unfold slotAgenda; rw [hal.1, visit_self hS, ← hal.1]; rfl]
        simp only [Nat.add_sub_cancel]
        abel
      · intro j key hk l hl
        rcases mem_moveDown i _ _ j key hk with hk | hk
        · exact hdec.1 j key hk l hl
        · exact hkeys key hk l (Nat.lt_succ_of_lt hl)
    · -- it did not: nothing moves
      have hround : w.round = false := by simp [TimerWheel.round, hw, hr]
      rw [hround, Bool.not_false, if_pos rfl]
      have hup : (c - 1) / Size = c / Size := by
        have h1 := Nat.div_add_mod c Size
        have h2 : (c % Size - 1) / Size = 0 :=
          Nat.div_eq_of_lt (by have := Nat.mod_lt c hS; omega)
        rw [show c - 1 = Size * (c / Size) + (c % Size - 1) by omega, Nat.mul_add_div hS, h2,
          Nat.add_zero]
      rw [hup] at hal ⊢
      exact ⟨rfl, ⟨hw, hal⟩, hdec⟩

end HappyServer.Timer
