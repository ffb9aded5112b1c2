import HappyServer.Buffer.Space
import HappyServer.Lib.Runs

/-!
# A buffer is a queue of bytes

`Queue.step` says what the operations are for; `room` is the number of bytes free in front.
`queueSystem` runs a buffer and the queue next to each other, and `Sound` connects them.

    Sound b q → Fits b op → … → ∃ out b', exec fresh b op = some (out, b') ∧
      (out, q') = Queue.step b.readpos_ q op ∧ Sound b' q'                      (Sound.exec)
    (queueSystem.restrict ReservesInside).Reach t → Sound t.buffer t.queue      (sound_of_reach)

An `init` that reserves more than `capacity_` puts the positions outside the storage.
-/

namespace HappyServer.Buffer

open Block Word

variable {fresh : Nat → UInt8} {b b' : Buffer} {q data : List UInt8}

/-! ## What a buffer is for -/

def Queue.step (room : Nat) (q : List UInt8) : Op → Output × List UInt8
  | .writeBack data => (.done, q ++ data)
  | .writeFront data =>
    if 0 < data.length ∧ data.length ≤ room then (.wrote true, data ++ q) else (.wrote false, q)
  | .read n =>
    if 0 < n.toNat ∧ n.toNat ≤ q.length then (.bytes (some (q.take n.toNat)), q.drop n.toNat)
    else (.bytes none, q)
  | .seek offset _ =>
    (.position (room + min offset.toInt.toNat q.length), q.drop (min offset.toInt.toNat q.length))
  | .clear => (.done, [])
  | .init _ _ => (.done, [])
  | _ => (.done, q)

/-- The operations of a queue: seeking is forward, and `writepos_` is not set. -/
def Op.OnQueue : Op → Prop
  | .seek offset s => 0 ≤ offset.toInt ∧ s = .Current
  | .offsetWritepos _ => False
  | .movedFrom => False
  | _ => True

/-- No size that the operation computes overflows. -/
def Fits (b : Buffer) : Op → Prop
  | .writeBack data => b.Room data.length
  | .checkSpace need => b.Room need.toNat
  | .init capacity headreserved => (b.reserve headreserved.toNat).Room capacity.toNat
  | .read n => b.readpos_ + n.toNat < 2 ^ 64
  | .seek offset _ => b.readpos_ + offset.toInt < 2 ^ 64
  | _ => True

def ReservesInside (b : Buffer) : Op → Prop
  | .init _ headreserved => headreserved.toNat ≤ b.capacity_
  | _ => True

/-! ## Buffer and queue together -/

structure Tracked where
  buffer : Buffer
  queue : List UInt8
  /-- `write_front` was called since the construction, `clear` or `init` -/
  fronted : Bool

def fronts (fronted : Bool) : Op → Bool
  | .writeFront _ => true
  | .clear => false
  | .init _ _ => false
  | _ => fronted

def queueSystem : System Tracked Op where
  start t := ∃ fresh capacity headreserved, headreserved ≤ STACK_CAPACITY ∧
    (blank headreserved).Room capacity ∧ make fresh capacity headreserved = some t.buffer ∧
    t.queue = [] ∧ t.fronted = false
  step t op t' := op.OnQueue ∧ Fits t.buffer op ∧
    (∃ fresh out, exec fresh t.buffer op = some (out, t'.buffer)) ∧
    t'.queue = (Queue.step t.buffer.readpos_ t.queue op).2 ∧ t'.fronted = fronts t.fronted op

structure Sound (b : Buffer) (q : List UInt8) : Prop where
  ordered : Ordered b
  intact : Intact b
  holds : Holds b q
  head_le : b.headreserved_ ≤ b.capacity_

/-! ## The operations -/

theorem Sound.checkSpace (fresh : Nat → UInt8) {need : Nat} (h : Sound b q) (hroom : b.Room need) :
    ∃ b', b.checkSpace fresh need = some b' ∧ Sound b' q ∧ b'.writepos_ + need ≤ b'.capacity_ ∧
      (b.headreserved_ ≤ b.readpos_ → b'.headreserved_ ≤ b'.readpos_) := by
  have hhead := h.head_le
  obtain ⟨b', hspace, hi, hq, hhead', hpos⟩ :=
    h.holds.checkSpace fresh h.ordered h.intact hroom
  obtain ⟨hb, hroom', hcap⟩ := h.ordered.checkSpace hroom hspace
  exact ⟨b', hspace, ⟨hb, hi, hq, by omega⟩, hroom', fun _ => by omega⟩

theorem Sound.flag (h : Sound b q) (flag : UInt32) : Sound { b with flag_ := flag } q :=
  ⟨⟨h.ordered.read_le, h.ordered.write_le, h.ordered.capacity_lt⟩, h.intact, h.holds, h.head_le⟩

/-- A buffer with nothing between its positions. -/
theorem sound_nil (hi : Intact b) (hcap : b.capacity_ < 2 ^ 64) (hhead : b.headreserved_ ≤ b.capacity_)
    (hr : b.readpos_ = b.headreserved_) (hw : b.writepos_ = b.headreserved_) : Sound b [] := by
  refine ⟨⟨by omega, by omega, hcap⟩, hi, ?_, by omega⟩
  unfold Intact at hi
  unfold Holds
  rw [hr, hw, Nat.sub_self, load_zero (by omega)]

theorem sound_blank {headreserved : Nat} (h : headreserved ≤ STACK_CAPACITY) :
    Sound (blank headreserved) [] :=
  sound_nil List.length_replicate (show STACK_CAPACITY < 2 ^ 64 by decide) h rfl rfl

theorem make_sound (fresh : Nat → UInt8) {capacity headreserved : Nat}
    (h : headreserved ≤ STACK_CAPACITY) (hroom : (blank headreserved).Room capacity) :
    ∃ b, make fresh capacity headreserved = some b ∧ Sound b [] ∧ b.headreserved_ ≤ b.readpos_ := by
  unfold make
  dsimp only
  split
  · obtain ⟨b, hspace, hb, -, hhead⟩ := (sound_blank h).checkSpace fresh hroom
    exact ⟨b, hspace, hb, hhead (Nat.le_refl _)⟩
  · exact ⟨_, rfl, sound_blank h, Nat.le_refl _⟩

theorem Sound.init (fresh : Nat → UInt8) (h : Sound b q) {capacity headreserved : Nat}
    (hinside : headreserved ≤ b.capacity_) (hroom : (b.reserve headreserved).Room capacity) :
    ∃ b', b.init fresh capacity headreserved = some b' ∧ Sound b' [] ∧
      b'.headreserved_ ≤ b'.readpos_ := by
  have hreserved : Sound (b.reserve headreserved) [] :=
    sound_nil h.intact h.ordered.capacity_lt hinside rfl rfl
  obtain ⟨b', hspace, hb, -, hhead⟩ := hreserved.checkSpace fresh hroom
  refine ⟨{ b' with flag_ := 0 }, ?_, hb.flag 0, hhead (Nat.le_refl _)⟩
  unfold Buffer.init
  rw [hspace]
  rfl

theorem Sound.writeBack (fresh : Nat → UInt8) (h : Sound b q) (hroom : b.Room data.length) :
    ∃ b', b.writeBack fresh data = some b' ∧ Sound b' (q ++ data) ∧
      (b.headreserved_ ≤ b.readpos_ → b'.headreserved_ ≤ b'.readpos_) := by
  unfold Buffer.writeBack
  by_cases hzero : data.length = 0
  · rw [if_pos hzero, List.eq_nil_of_length_eq_zero hzero, List.append_nil]
    exact ⟨b, rfl, h, id⟩
  rw [if_neg hzero]
  obtain ⟨b₁, hspace, h₁, hfits, hhead⟩ := h.checkSpace fresh hroom
  have hread := h₁.ordered.read_le
  have hcap := h₁.ordered.capacity_lt
  have hhead₁ := h₁.head_le
  have hi := h₁.intact
  unfold Intact at hi
  obtain ⟨b₂, hcopy, hstore, hsame⟩ := b₁.memcpy_of_le
    (show b₁.writepos_ + data.length ≤ b₁.storage.length by omega)
  have hlen := length_store hstore
  have hw : add64 b₂.writepos_ data.length = b₁.writepos_ + data.length := by
    rw [hsame.write]
    exact add64_of_lt _ _ (by omega)
  refine ⟨{ b₂ with writepos_ := b₁.writepos_ + data.length }, ?_, ⟨⟨?_, ?_, ?_⟩, ?_, ?_, ?_⟩, ?_⟩
  · simp only [Option.bind_eq_bind, hspace, Option.bind_some, hcopy, hw]
  · show b₂.readpos_ ≤ b₁.writepos_ + data.length
    rw [hsame.read]
    omega
  · show b₁.writepos_ + data.length ≤ b₂.capacity_
    rw [hsame.capacity]
    exact hfits
  · show b₂.capacity_ < 2 ^ 64
    rw [hsame.capacity]
    exact hcap
  · show b₂.storage.length = b₂.capacity_
    rw [hlen, hi, hsame.capacity]
  · show load b₂.storage b₂.readpos_ (b₁.writepos_ + data.length - b₂.readpos_) = _
    rw [hsame.read, show b₁.writepos_ + data.length - b₁.readpos_ =
      b₁.writepos_ - b₁.readpos_ + data.length by omega]
    apply load_add
    · rw [load_store_below hstore (by omega)]
      exact h₁.holds
    · rw [show b₁.readpos_ + (b₁.writepos_ - b₁.readpos_) = b₁.writepos_ by omega]
      exact load_store hstore
  · show b₂.headreserved_ ≤ b₂.capacity_
    rw [hsame.head, hsame.capacity]
    exact hhead₁
  · intro hle
    show b₂.headreserved_ ≤ b₂.readpos_
    rw [hsame.head, hsame.read]
    exact hhead hle

theorem Sound.writeFront (h : Sound b q) (hpos : 0 < data.length) (hle : data.length ≤ b.readpos_) :
    ∃ b', b.writeFront data = some (true, b') ∧ Sound b' (data ++ q) := by
  have hread := h.ordered.read_le
  have hwrite := h.ordered.write_le
  have hi := h.intact
  unfold Intact at hi
  obtain ⟨b', hcopy, hstore, hsame⟩ :=
    memcpy_of_le { b with readpos_ := b.readpos_ - data.length }
      (show b.readpos_ - data.length + data.length ≤ b.storage.length by omega)
  have hlen : b'.storage.length = b.storage.length := length_store hstore
  have hr : b'.readpos_ = b.readpos_ - data.length := hsame.read
  have hw : b'.writepos_ = b.writepos_ := hsame.write
  have hc : b'.capacity_ = b.capacity_ := hsame.capacity
  have hh : b'.headreserved_ = b.headreserved_ := hsame.head
  have hcap := h.ordered.capacity_lt
  have hhead := h.head_le
  refine ⟨b', ?_, ⟨⟨by omega, by omega, by omega⟩, ?_, ?_, by omega⟩⟩
  · unfold Buffer.writeFront
    rw [if_neg (by omega), if_neg (by omega)]
    simp only [Option.bind_eq_bind, hcopy, Option.bind_some]
  · unfold Intact
    omega
  · unfold Holds
    rw [hr, hw, show b.writepos_ - (b.readpos_ - data.length) =
      data.length + (b.writepos_ - b.readpos_) by omega]
    apply load_add
    · exact load_store hstore
    · rw [show b.readpos_ - data.length + data.length = b.readpos_ by omega,
        load_store_above hstore (by omega)]
      exact h.holds

theorem writeFront_refused (h : ¬(0 < data.length ∧ data.length ≤ b.readpos_)) :
    b.writeFront data = some (false, b) := by
  unfold Buffer.writeFront
  split
  · rfl
  next hpos => exact if_pos (by omega)

/-- What is dropped in front is not there any more. -/
theorem Sound.drop {n : Nat} (h : Sound b q) (hn : n ≤ q.length) :
    Sound { b with readpos_ := b.readpos_ + n } (q.drop n) := by
  have hlen := h.holds.length_eq
  have hread := h.ordered.read_le
  refine ⟨⟨?_, h.ordered.write_le, h.ordered.capacity_lt⟩, h.intact, ?_, h.head_le⟩
  · show b.readpos_ + n ≤ b.writepos_
    omega
  · show load b.storage (b.readpos_ + n) (b.writepos_ - (b.readpos_ + n)) = _
    apply load_back
    rw [show n + (b.writepos_ - (b.readpos_ + n)) = b.writepos_ - b.readpos_ by omega]
    exact h.holds

theorem Sound.read {n : Nat} (h : Sound b q) (hpos : 0 < n) (hn : n ≤ q.length) :
    b.read n = some (some (q.take n), { b with readpos_ := b.readpos_ + n }) := by
  have hlen := h.holds.length_eq
  have hread := h.ordered.read_le
  have hwrite := h.ordered.write_le
  have hcap := h.ordered.capacity_lt
  have hload : load b.storage b.readpos_ n = some (q.take n) := by
    apply load_front (n := b.writepos_ - b.readpos_ - n)
    rw [show n + (b.writepos_ - b.readpos_ - n) = b.writepos_ - b.readpos_ by omega]
    exact h.holds
  unfold Buffer.read
  rw [if_neg (by omega), add64_of_lt _ _ (by omega), if_neg (by omega), hload]
  rfl

theorem Sound.read_refused {n : Nat} (h : Sound b q) (hfits : b.readpos_ + n < 2 ^ 64)
    (hn : ¬(0 < n ∧ n ≤ q.length)) : b.read n = some (none, b) := by
  have hlen := h.holds.length_eq
  have hread := h.ordered.read_le
  unfold Buffer.read
  split
  · rfl
  next hpos =>
    rw [add64_of_lt _ _ hfits]
    exact if_pos (by omega)

theorem Sound.seek {offset : Int} (h : Sound b q) (hpos : 0 ≤ offset)
    (hfits : b.readpos_ + offset < 2 ^ 64) :
    b.seek offset .Current = { b with readpos_ := b.readpos_ + min offset.toNat q.length } := by
  have hlen := h.holds.length_eq
  have hread := h.ordered.read_le
  have hsum := u64_of_range (b.readpos_ + offset) (by omega) hfits
  unfold Buffer.seek
  dsimp only
  congr 1
  split <;> omega

theorem Sound.clear (h : Sound b q) : Sound b.clear [] :=
  sound_nil h.intact h.ordered.capacity_lt h.head_le rfl rfl

/-! ## Every operation -/

/-- One operation of the buffer is one of the queue. -/
theorem Sound.exec (fresh : Nat → UInt8) (h : Sound b q) {op : Op} (hop : op.OnQueue) (hfits : Fits b op)
    (hinside : ReservesInside b op) :
    ∃ b', exec fresh b op = some ((Queue.step b.readpos_ q op).1, b') ∧
      Sound b' (Queue.step b.readpos_ q op).2 ∧
      ((Queue.step b.readpos_ q op).1 = .wrote false ∨ (Queue.step b.readpos_ q op).1 = .bytes none →
        b' = b) ∧
      (∀ need, op = .checkSpace need → need.toNat ≤ b'.writeablesize) ∧
      (∀ fronted, (fronted = false → b.headreserved_ ≤ b.readpos_) →
        fronts fronted op = false → b'.headreserved_ ≤ b'.readpos_) := by
  cases op with
  | init capacity headreserved =>
    obtain ⟨b', hinit, hb, hhead⟩ := h.init fresh hinside hfits
    refine ⟨b', ?_, hb, nofun, nofun, fun _ _ _ => hhead⟩
    rw [Buffer.exec, hinit]
    rfl
  | writeBack data =>
    obtain ⟨b', hwrite, hb, hhead⟩ := h.writeBack fresh hfits
    refine ⟨b', ?_, hb, nofun, nofun, fun _ hf hfr => hhead (hf hfr)⟩
    rw [Buffer.exec, hwrite]
    rfl
  | writeFront data =>
    unfold Queue.step Buffer.exec
    dsimp only
    by_cases hcond : 0 < data.length ∧ data.length ≤ b.readpos_
    · rw [if_pos hcond]
      obtain ⟨b', hwrite, hb⟩ := h.writeFront hcond.1 hcond.2
      rw [hwrite]
      exact ⟨b', rfl, hb, nofun, nofun, nofun⟩
    · rw [if_neg hcond]
      rw [writeFront_refused hcond]
      exact ⟨b, rfl, h, fun _ => rfl, nofun, nofun⟩
  | read n =>
    unfold Queue.step Buffer.exec
    dsimp only
    by_cases hcond : 0 < n.toNat ∧ n.toNat ≤ q.length
    · rw [if_pos hcond, h.read hcond.1 hcond.2]
      refine ⟨_, rfl, h.drop hcond.2, nofun, nofun, fun _ hf hfr => ?_⟩
      exact Nat.le_trans (hf hfr) (Nat.le_add_right _ _)
    · rw [if_neg hcond]
      rw [h.read_refused hfits hcond]
      exact ⟨b, rfl, h, fun _ => rfl, nofun, fun _ hf hfr => hf hfr⟩
  | seek offset s =>
    obtain ⟨hpos, rfl⟩ := hop
    refine ⟨b.seek offset.toInt .Current, ?_, ?_, nofun, nofun, fun _ hf hfr => ?_⟩
    · rw [Buffer.exec, h.seek hpos hfits]
      rfl
    · rw [h.seek hpos hfits]
      exact h.drop (Nat.min_le_right _ _)
    · rw [h.seek hpos hfits]
      exact Nat.le_trans (hf hfr) (Nat.le_add_right _ _)
  | clear => exact ⟨_, rfl, h.clear, nofun, nofun, fun _ _ _ => Nat.le_refl _⟩
  | setFlag v => exact ⟨_, rfl, h.flag _, nofun, nofun, fun _ hf hfr => hf hfr⟩
  | clearFlag v => exact ⟨_, rfl, h.flag _, nofun, nofun, fun _ hf hfr => hf hfr⟩
  | offsetWritepos offset => exact hop.elim
  | movedFrom => exact hop.elim
  | checkSpace need =>
    obtain ⟨b', hspace, hb, hroom, hhead⟩ := h.checkSpace fresh hfits
    refine ⟨b', ?_, hb, nofun, ?_, fun _ hf hfr => hhead (hf hfr)⟩
    · rw [Buffer.exec, hspace]
      rfl
    · intro need' heq
      obtain rfl := Op.checkSpace.inj heq
      rw [writeablesize_eq hb.ordered]
      omega

/-! ## Every run -/

/-- `init` reserves a head inside the storage. -/
def Inside (t : Tracked) (op : Op) : Prop := ReservesInside t.buffer op

theorem sound_of_reach {t : Tracked} (h : (queueSystem.restrict Inside).Reach t) :
    Sound t.buffer t.queue ∧ (t.fronted = false → t.buffer.headreserved_ ≤ t.buffer.readpos_) := by
  refine System.Reach.invariant (fun t hstart => ?_) (fun t op t' _ hs hstep => ?_) h
  · obtain ⟨fresh, capacity, headreserved, hle, hroom, hmake, hqueue, -⟩ := hstart
    obtain ⟨b, hmake', hb, hhead⟩ := make_sound fresh hle hroom
    obtain rfl := Option.some.inj (hmake'.symm.trans hmake)
    rw [hqueue]
    exact ⟨hb, fun _ => hhead⟩
  · obtain ⟨hinside, hop, hfits, ⟨fresh, out, hexec⟩, hqueue, hfronted⟩ := hstep
    obtain ⟨b', hexec', hb, -, -, hhead⟩ := hs.1.exec fresh hop hfits hinside
    obtain ⟨-, rfl⟩ := Prod.mk.inj (Option.some.inj (hexec'.symm.trans hexec))
    rw [hqueue, hfronted]
    exact ⟨hb, hhead t.fronted hs.2⟩

/-- What is said of every state of a run; `ok` is what the next operation has to meet. -/
def ActsAsQueue (ok : Tracked → Op → Prop) (t : Tracked) : Prop :=
  t.buffer.readable = t.queue ∧
  (t.fronted = false → t.buffer.headreserved_ ≤ t.buffer.readpos_) ∧
  ∀ fresh op, op.OnQueue → Fits t.buffer op → ok t op →
    let (out, queue) := Queue.step t.buffer.readpos_ t.queue op
    ∃ b', exec fresh t.buffer op = some (out, b') ∧ b'.readable = queue ∧
      (out = .wrote false ∨ out = .bytes none → b' = t.buffer) ∧
      (∀ need, op = .checkSpace need → need.toNat ≤ b'.writeablesize)

/-- A buffer can be constructed, and is a queue from then on. -/
def BufferIsQueue (ok : Tracked → Op → Prop) : Prop :=
  (∀ fresh capacity headreserved, headreserved ≤ STACK_CAPACITY →
    (blank headreserved).Room capacity → ∃ b, make fresh capacity headreserved = some b) ∧
  ∀ t, (queueSystem.restrict ok).Reach t → ActsAsQueue ok t

/-- Runs in which every `init` reserves inside the storage are those of a queue. -/
theorem bufferIsQueue_of_inside (ok : Tracked → Op → Prop) (hok : ∀ t op, ok t op → Inside t op) :
    BufferIsQueue ok := by
  refine ⟨fun fresh capacity headreserved hle hroom => ?_, fun t ht => ?_⟩
  · obtain ⟨b, hmake, -⟩ := make_sound fresh hle hroom
    exact ⟨b, hmake⟩
  · obtain ⟨hb, hhead⟩ := sound_of_reach (ht.restrict_mono hok)
    refine ⟨hb.holds.readable hb.ordered, hhead, fun fresh op hop hfits hnext => ?_⟩
    obtain ⟨b', hexec, hb', hsame, hspace, -⟩ := hb.exec fresh hop hfits (hok t op hnext)
    exact ⟨b', hexec, hb'.holds.readable hb'.ordered, hsame, hspace⟩

theorem bufferIsQueue_inside : BufferIsQueue Inside :=
  bufferIsQueue_of_inside Inside fun _ _ h => h

theorem writeBack_outside (hpos : 0 < data.length) (hneed : data.length ≤ b.writeablesize)
    (hout : b.storage.length < b.writepos_ + data.length) : b.writeBack fresh data = none := by
  have hcopy : b.memcpy b.writepos_ data = none := by
    cases h : b.memcpy b.writepos_ data with
    | none => rfl
    | some b' =>
      obtain ⟨hstore, -⟩ := memcpy_some h
      obtain ⟨hle, -⟩ := store_some hstore
      omega
  unfold writeBack checkSpace
  rw [if_neg (by omega), if_pos hneed]
  simp only [Option.bind_eq_bind, Option.bind_some, hcopy, Option.bind_none]

/-- An `init` outside the storage succeeds, and the next byte is written outside. -/
theorem init_outside (fresh : Nat → UInt8) (h : Sound b q) {capacity headreserved : Nat}
    (hout : b.capacity_ < headreserved) (hword : headreserved < 2 ^ 32)
    (hroom : (b.reserve headreserved).Room capacity) :
    ∃ b', b.init fresh capacity headreserved = some b' ∧ b'.capacity_ < b'.writepos_ ∧
      b'.Room 1 ∧ ∀ fresh' x, b'.writeBack fresh' [x] = none := by
  have hspace : (b.reserve headreserved).writeablesize = 2 ^ 64 - (headreserved - b.capacity_) := by
    show sub64 b.capacity_ headreserved = _
    unfold sub64
    omega
  have hneed : capacity ≤ (b.reserve headreserved).writeablesize := by
    rcases hroom with hroom | ⟨-, hroom⟩ | ⟨-, hroom⟩
    · exact hroom
    · have := nextPow2_lt (add64_lt (b.reserve headreserved).writepos_ capacity)
      have : (b.reserve headreserved).writepos_ = headreserved := rfl
      omega
    · have : (b.reserve headreserved).headreserved_ = headreserved := rfl
      omega
  have hone : 1 ≤ (b.reserve headreserved).writeablesize := by omega
  have hi := h.intact
  unfold Intact at hi
  refine ⟨{ b.reserve headreserved with flag_ := 0 }, ?_, hout, Or.inl hone, fun fresh' x => ?_⟩
  · unfold Buffer.init checkSpace
    rw [if_pos hneed]
    rfl
  · have hone' : [x].length ≤ (b.reserve headreserved).writeablesize := hone
    refine writeBack_outside Nat.one_pos hone' ?_
    show b.storage.length < headreserved + 1
    omega

/-- `init(64, 1000)` on a new buffer, and a byte. -/
theorem not_bufferIsQueue : ¬BufferIsQueue fun _ _ => True := by
  rintro ⟨-, h⟩
  have hroom : (blank 0).Room 0 := by decide
  have hroom' : ((blank 0).reserve (1000 : UInt32).toNat).Room (64 : UInt64).toNat := by decide
  have hb := sound_blank (Nat.zero_le STACK_CAPACITY)
  obtain ⟨b', hinit, -, hone, hwrite⟩ := init_outside (fun _ => 0) hb
    (show STACK_CAPACITY < (1000 : UInt32).toNat by decide) (by decide) hroom'
  have hstart : (queueSystem.restrict fun _ _ => True).start ⟨blank 0, [], false⟩ :=
    ⟨fun _ => 0, 0, 0, by decide, hroom, rfl, rfl, rfl⟩
  have hstep : (queueSystem.restrict fun _ _ => True).step ⟨blank 0, [], false⟩ (.init 64 1000)
      ⟨b', [], false⟩ := by
    refine ⟨trivial, trivial, hroom', ⟨fun _ => 0, .done, ?_⟩, rfl, rfl⟩
    rw [Buffer.exec, hinit]
    rfl
  have hreach : (queueSystem.restrict fun _ _ => True).Reach ⟨b', [], false⟩ :=
    System.Reach.step (System.Reach.start hstart) hstep
  obtain ⟨-, -, hnext⟩ := h _ hreach
  obtain ⟨b'', hexec, -⟩ := hnext (fun _ => 0) (.writeBack [0]) trivial hone trivial
  rw [Buffer.exec, hwrite] at hexec
  cases hexec

end HappyServer.Buffer
