import HappyServer.Buffer.Queue

/-!
# The positions of a buffer

Every public operation, with any arguments.  `Marked` adds the region that was written: the
positions from `lo` to `hi`.

* `Careful` is what an operation has to meet: no size overflows, the reserved head is inside the
  storage, and no position is set outside the written region.

    (positionSystem.restrict Careful).Reach (some m) → InRegion m          (inRegion_of_careful)

`seek` from `Begin` and `offset_writepos` do not look where they set the position.
-/

namespace HappyServer.Buffer

open Block Word

structure Marked where
  buffer : Buffer
  lo : Nat
  hi : Nat

/-- `check_space` led to `b'`; memory that is allocated is not written. -/
def markSpace (m : Marked) (need : Nat) (b' : Buffer) : Marked :=
  if m.buffer.writeablesize ≥ need then ⟨b', m.lo, m.hi⟩
  else if m.buffer.grows need then ⟨b', m.lo, m.buffer.writepos_⟩
  else ⟨b', m.buffer.headreserved_, add64 m.buffer.headreserved_ m.buffer.size⟩

/-- The operation led to `b'`. -/
def mark (m : Marked) (b' : Buffer) : Op → Marked
  | .init _ headreserved => ⟨b', headreserved.toNat, headreserved.toNat⟩
  | .clear => ⟨b', m.buffer.headreserved_, m.buffer.headreserved_⟩
  | .writeBack data =>
    if data.length = 0 then ⟨b', m.lo, m.hi⟩
    else
      let spaced := markSpace m data.length b'
      ⟨b', spaced.lo, max spaced.hi b'.writepos_⟩
  | .writeFront _ => ⟨b', min m.lo b'.readpos_, m.hi⟩
  | .checkSpace need => markSpace m need.toNat b'
  | _ => ⟨b', m.lo, m.hi⟩

inductive Call where
  | construct (capacity : UInt64) (headreserved : UInt32)
  | call (op : Op)

/-- Before its construction there is no buffer. -/
def positionSystem : System (Option Marked) Call where
  start m := m = none
  step
    | none, .construct capacity headreserved, m => ∃ fresh b,
      make fresh capacity.toNat headreserved.toNat = some b ∧
      m = some ⟨b, headreserved.toNat, headreserved.toNat⟩
    | some m, .call op, m' => ∃ fresh out b', exec fresh m.buffer op = some (out, b') ∧
      m' = some (mark m b' op)
    | _, _, _ => False

/-- The positions are in order, and what can be read was written. -/
structure InRegion (m : Marked) : Prop where
  read_le : m.buffer.readpos_ ≤ m.buffer.writepos_
  write_le : m.buffer.writepos_ ≤ m.buffer.capacity_
  lo_le : m.lo ≤ m.buffer.readpos_
  le_hi : m.buffer.writepos_ ≤ m.hi

/-- Where the operation sets a position, it is in the written region (a position below 0 is
taken for one above `capacity_`). -/
def SetsInside (m : Marked) : Op → Prop
  | .seek offset .Begin => m.lo ≤ offset.toInt ∧ offset.toInt ≤ m.buffer.writepos_
  | .seek offset .Current => m.buffer.readpos_ + offset.toInt < 0 ∨
    (m.lo ≤ m.buffer.readpos_ + offset.toInt ∧ m.buffer.readpos_ + offset.toInt < 2 ^ 64)
  | .seek offset .End => m.buffer.writepos_ + offset.toInt < 0 ∨
    (m.lo ≤ m.buffer.writepos_ + offset.toInt ∧ m.buffer.writepos_ + offset.toInt < 2 ^ 64)
  | .offsetWritepos offset =>
    (m.buffer.readpos_ ≤ m.buffer.writepos_ + offset.toInt ∧
      m.buffer.writepos_ + offset.toInt ≤ m.hi) ∨
    (m.hi = m.buffer.capacity_ ∧ (m.buffer.writepos_ + offset.toInt < 0 ∨
      (m.buffer.capacity_ ≤ m.buffer.writepos_ + offset.toInt ∧
        m.buffer.writepos_ + offset.toInt < 2 ^ 64)))
  | _ => True

/-- The sizes of the operation do not overflow; a `seek` adds no sizes. -/
def SizesFit (b : Buffer) : Op → Prop
  | .seek _ _ => True
  | op => Fits b op

def Careful : Option Marked → Call → Prop
  | _, .construct capacity headreserved =>
    headreserved.toNat ≤ STACK_CAPACITY ∧ (blank headreserved.toNat).Room capacity.toNat
  | some m, .call op => SizesFit m.buffer op ∧ ReservesInside m.buffer op ∧ SetsInside m op
  | none, .call _ => True

/-! ## What the operations keep -/

structure Kept (m : Marked) : Prop extends InRegion m where
  capacity_lt : m.buffer.capacity_ < 2 ^ 64
  head_le : m.buffer.headreserved_ ≤ m.buffer.capacity_
  hi_le : m.hi ≤ m.buffer.capacity_

variable {fresh : Nat → UInt8} {b b' : Buffer} {m : Marked} {data : List UInt8}

theorem Kept.ordered (h : Kept m) : Ordered m.buffer := ⟨h.read_le, h.write_le, h.capacity_lt⟩

@[simp] theorem markSpace_buffer {need : Nat} : (markSpace m need b').buffer = b' := by
  unfold markSpace
  split
  · rfl
  · split <;> rfl

theorem Kept.checkSpace {need : Nat} (h : Kept m) (hroom : m.buffer.Room need)
    (hspace : m.buffer.checkSpace fresh need = some b') :
    Kept (markSpace m need b') ∧ b'.writepos_ + need ≤ b'.capacity_ := by
  obtain ⟨⟨hread, hwrite, hcap⟩, hfits, hgrow⟩ := h.ordered.checkSpace hroom hspace
  have hlo := h.lo_le
  have hhead := h.head_le
  refine ⟨?_, hfits⟩
  unfold markSpace
  rcases checkSpace_some hspace with ⟨hle, rfl⟩ | ⟨hlt, hgrows, h⟩ | ⟨hlt, hgrows, h⟩
  · rw [if_pos hle]
    exact h
  · rw [if_neg (by omega), if_pos hgrows]
    obtain ⟨heap, -, -, rfl⟩ := grow_some h
    exact ⟨⟨hread, hwrite, hlo, Nat.le_refl _⟩, hcap, Nat.le_trans hhead hgrow, hwrite⟩
  · rw [if_neg (by omega), if_neg hgrows]
    obtain ⟨-, -, -, hh, hc, hr, hw⟩ := compact_some h
    rw [← hw]
    refine ⟨⟨hread, hwrite, ?_, Nat.le_refl _⟩, hcap, ?_, hwrite⟩
    · show m.buffer.headreserved_ ≤ b'.readpos_
      omega
    · show b'.headreserved_ ≤ b'.capacity_
      omega

theorem kept_blank {headreserved : Nat} (h : headreserved ≤ STACK_CAPACITY) :
    Kept ⟨blank headreserved, headreserved, headreserved⟩ :=
  ⟨⟨Nat.le_refl _, h, Nat.le_refl _, Nat.le_refl _⟩, show STACK_CAPACITY < 2 ^ 64 by decide, h, h⟩

/-- With nothing written, `check_space` leaves nothing written. -/
theorem markSpace_empty {need head : Nat} (hr : b.readpos_ = head) (hw : b.writepos_ = head)
    (hh : b.headreserved_ = head) (hlt : head < 2 ^ 64) :
    markSpace ⟨b, head, head⟩ need b' = ⟨b', head, head⟩ := by
  unfold markSpace
  split
  · rfl
  split
  · rw [hw]
  · have hsum : add64 head (sub64 head head) = head := by
      unfold add64 sub64
      omega
    rw [size, hw, hr, hh, hsum]

theorem Kept.make {capacity headreserved : Nat} (h : headreserved ≤ STACK_CAPACITY)
    (hroom : (blank headreserved).Room capacity) (hmake : make fresh capacity headreserved = some b) :
    Kept ⟨b, headreserved, headreserved⟩ := by
  have hlt : headreserved < 2 ^ 64 := Nat.lt_of_le_of_lt h (by decide)
  unfold Buffer.make at hmake
  dsimp only at hmake
  split at hmake
  · have hkept := ((kept_blank h).checkSpace hroom hmake).1
    have hmark : markSpace ⟨blank headreserved, headreserved, headreserved⟩ capacity b =
      ⟨b, headreserved, headreserved⟩ := markSpace_empty rfl rfl rfl hlt
    rw [hmark] at hkept
    exact hkept
  · obtain rfl := Option.some.inj hmake
    exact kept_blank h

theorem Kept.init {capacity headreserved : Nat} (h : Kept m)
    (hinside : headreserved ≤ m.buffer.capacity_)
    (hroom : (m.buffer.reserve headreserved).Room capacity)
    (hinit : m.buffer.init fresh capacity headreserved = some b') :
    Kept ⟨b', headreserved, headreserved⟩ := by
  have hlt : headreserved < 2 ^ 64 := Nat.lt_of_le_of_lt hinside h.capacity_lt
  have hreserved : Kept ⟨m.buffer.reserve headreserved, headreserved, headreserved⟩ :=
    ⟨⟨Nat.le_refl _, hinside, Nat.le_refl _, Nat.le_refl _⟩, h.capacity_lt, hinside, hinside⟩
  obtain ⟨b₁, hspace, hinit⟩ := Option.bind_eq_some_iff.mp hinit
  have hkept := (hreserved.checkSpace hroom hspace).1
  have hmark : markSpace ⟨m.buffer.reserve headreserved, headreserved, headreserved⟩ capacity b₁ =
    ⟨b₁, headreserved, headreserved⟩ := markSpace_empty rfl rfl rfl hlt
  rw [hmark] at hkept
  obtain rfl := Option.some.inj hinit
  exact ⟨⟨hkept.read_le, hkept.write_le, hkept.lo_le, hkept.le_hi⟩, hkept.capacity_lt, hkept.head_le,
    hkept.hi_le⟩

theorem Kept.writeBack (h : Kept m) (hroom : m.buffer.Room data.length)
    (hwrite : m.buffer.writeBack fresh data = some b') : Kept (mark m b' (.writeBack data)) := by
  rw [mark]
  obtain ⟨hzero, rfl⟩ | ⟨b₁, b₂, hzero, hspace, hcopy, hb'⟩ := writeBack_some hwrite
  · rw [if_pos hzero]
    exact h
  rw [if_neg hzero]
  obtain ⟨hkept, hfits⟩ := h.checkSpace hroom hspace
  obtain ⟨-, hsame⟩ := memcpy_some hcopy
  have hr₂ := hsame.read
  have hw₂ := hsame.write
  have hc₂ := hsame.capacity
  have hh₂ := hsame.head
  have hcap := hkept.capacity_lt
  have hread := hkept.read_le
  have hlo := hkept.lo_le
  have hhi := hkept.hi_le
  have hhead := hkept.head_le
  rw [markSpace_buffer] at hcap hread hlo hhi hhead
  have hmark : ∀ b'', (markSpace m data.length b'').lo = (markSpace m data.length b₁).lo ∧
      (markSpace m data.length b'').hi = (markSpace m data.length b₁).hi := by
    intro b''
    unfold markSpace
    split
    · exact ⟨rfl, rfl⟩
    · split <;> exact ⟨rfl, rfl⟩
  obtain ⟨hlo', hhi'⟩ := hmark b'
  rw [hw₂, add64_of_lt _ _ (by omega)] at hb'
  subst hb'
  refine ⟨⟨?_, ?_, ?_, ?_⟩, ?_, ?_, ?_⟩
  all_goals dsimp only at hlo' hhi' ⊢
  all_goals omega

theorem Kept.writeFront {ok : Bool} (h : Kept m)
    (hwrite : m.buffer.writeFront data = some (ok, b')) : Kept (mark m b' (.writeFront data)) := by
  obtain ⟨⟨hread, hle, hlo, hhi⟩, hcap, hhead, hhi'⟩ := h
  rw [mark]
  obtain ⟨-, rfl⟩ | ⟨-, hroom, hcopy⟩ := writeFront_some hwrite
  · exact ⟨⟨hread, hle, Nat.le_trans (Nat.min_le_left _ _) hlo, hhi⟩, hcap, hhead, hhi'⟩
  · obtain ⟨-, hsame⟩ := memcpy_some hcopy
    have hr₂ := hsame.read
    have hw₂ := hsame.write
    have hc₂ := hsame.capacity
    have hh₂ := hsame.head
    dsimp only at hr₂ hw₂ hc₂ hh₂
    refine ⟨⟨?_, ?_, ?_, ?_⟩, ?_, ?_, ?_⟩
    all_goals dsimp only
    all_goals omega

theorem Kept.read {n : Nat} {out : Option (List UInt8)} (h : Kept m)
    (hfits : m.buffer.readpos_ + n < 2 ^ 64) (hread : m.buffer.read n = some (out, b')) :
    Kept ⟨b', m.lo, m.hi⟩ := by
  obtain ⟨⟨hread', hle, hlo, hhi⟩, hcap, hhead, hhi'⟩ := h
  obtain ⟨-, rfl⟩ | ⟨-, hinside, rfl⟩ := read_some hread
  · exact ⟨⟨hread', hle, hlo, hhi⟩, hcap, hhead, hhi'⟩
  · rw [add64_of_lt _ _ hfits] at hinside ⊢
    refine ⟨⟨?_, hle, ?_, hhi⟩, hcap, hhead, hhi'⟩
    all_goals dsimp only
    all_goals omega

theorem Kept.seek {offset : Int32} {s : SeekOrigin} (h : Kept m)
    (hsets : SetsInside m (.seek offset s)) : Kept ⟨m.buffer.seek offset.toInt s, m.lo, m.hi⟩ := by
  obtain ⟨⟨hread, hle, hlo, hhi⟩, hcap, hhead, hhi'⟩ := h
  have hlow : -2 ^ 31 ≤ offset.toInt := Int32.le_toInt offset
  have hhigh : offset.toInt < 2 ^ 31 := Int32.toInt_lt offset
  cases s with
  | Begin =>
    obtain ⟨h1, h2⟩ := hsets
    have hpos := u64_of_range offset.toInt (by omega) (by omega)
    refine ⟨⟨?_, hle, ?_, hhi⟩, hcap, hhead, hhi'⟩
    · show u64 offset.toInt ≤ m.buffer.writepos_
      omega
    · show m.lo ≤ u64 offset.toInt
      omega
  | Current | End =>
    refine ⟨⟨?_, hle, ?_, hhi⟩, hcap, hhead, hhi'⟩
    all_goals unfold Buffer.seek u64
    all_goals unfold SetsInside at hsets
    all_goals dsimp only at hsets ⊢
    · split <;> omega
    · split <;> omega
  | other => exact ⟨⟨hread, hle, hlo, hhi⟩, hcap, hhead, hhi'⟩

theorem Kept.offsetWritepos {offset : Int32} (h : Kept m)
    (hsets : SetsInside m (.offsetWritepos offset)) :
    Kept ⟨m.buffer.offsetWritepos offset.toInt, m.lo, m.hi⟩ := by
  obtain ⟨⟨hread, hle, hlo, hhi⟩, hcap, hhead, hhi'⟩ := h
  have hlow : -2 ^ 31 ≤ offset.toInt := Int32.le_toInt offset
  have hhigh : offset.toInt < 2 ^ 31 := Int32.toInt_lt offset
  unfold SetsInside at hsets
  dsimp only at hsets
  refine ⟨⟨?_, ?_, hlo, ?_⟩, hcap, hhead, hhi'⟩
  all_goals unfold Buffer.offsetWritepos u64
  all_goals dsimp only
  · split <;> omega
  · split <;> omega
  · split <;> omega

/-- Below `2 ^ 63` bytes, nothing else that `seek` or `offset_writepos` are given is right. -/
theorem setsInside_of_inRegion {op : Op} {out : Output} (h : Kept m)
    (hcap : m.buffer.capacity_ < 2 ^ 63) (hexec : exec fresh m.buffer op = some (out, b'))
    (hregion : InRegion (mark m b' op)) : SetsInside m op := by
  obtain ⟨⟨hread, hle, hlo, hhi⟩, -, -, hhi'⟩ := h
  cases op with
  | seek offset s =>
    have hlow : -2 ^ 31 ≤ offset.toInt := Int32.le_toInt offset
    have hhigh : offset.toInt < 2 ^ 31 := Int32.toInt_lt offset
    obtain ⟨-, rfl⟩ := Prod.mk.inj (Option.some.inj hexec)
    obtain ⟨hread', -, hlo', -⟩ := hregion
    cases s with
    | Begin =>
      have hr : u64 offset.toInt ≤ m.buffer.writepos_ := hread'
      have hl : m.lo ≤ u64 offset.toInt := hlo'
      unfold u64 at hr hl
      unfold SetsInside
      dsimp only
      omega
    | Current =>
      unfold SetsInside
      dsimp only
      unfold mark Buffer.seek u64 at hlo'
      dsimp only at hlo'
      split at hlo' <;> omega
    | End =>
      unfold SetsInside
      dsimp only
      unfold mark Buffer.seek u64 at hlo'
      dsimp only at hlo'
      split at hlo' <;> omega
    | other => trivial
  | offsetWritepos offset =>
    have hlow : -2 ^ 31 ≤ offset.toInt := Int32.le_toInt offset
    have hhigh : offset.toInt < 2 ^ 31 := Int32.toInt_lt offset
    obtain ⟨-, rfl⟩ := Prod.mk.inj (Option.some.inj hexec)
    obtain ⟨hread', -, -, hhi''⟩ := hregion
    unfold SetsInside
    dsimp only
    unfold mark Buffer.offsetWritepos u64 at hread' hhi''
    dsimp only at hread' hhi''
    split at hread'
    next hclamp =>
      rw [if_pos hclamp] at hhi''
      omega
    next hclamp =>
      rw [if_neg hclamp] at hhi''
      omega
  | _ => trivial

/-- One operation that is careful keeps everything. -/
theorem Kept.exec {op : Op} {out : Output} (h : Kept m) (hcareful : Careful (some m) (.call op))
    (hexec : exec fresh m.buffer op = some (out, b')) : Kept (mark m b' op) := by
  obtain ⟨hsizes, hinside, hsets⟩ := hcareful
  rw [Buffer.exec.eq_def] at hexec
  cases op with
  | init capacity headreserved =>
    obtain ⟨b₁, hinit, heq⟩ := Option.map_eq_some_iff.mp hexec
    obtain ⟨-, rfl⟩ := Prod.mk.inj heq
    exact h.init hinside hsizes hinit
  | writeBack data =>
    obtain ⟨b₁, hwrite, heq⟩ := Option.map_eq_some_iff.mp hexec
    obtain ⟨-, rfl⟩ := Prod.mk.inj heq
    exact h.writeBack hsizes hwrite
  | writeFront data =>
    obtain ⟨⟨ok, b₁⟩, hwrite, heq⟩ := Option.map_eq_some_iff.mp hexec
    obtain ⟨-, rfl⟩ := Prod.mk.inj heq
    exact h.writeFront hwrite
  | read n =>
    obtain ⟨⟨bytes, b₁⟩, hread, heq⟩ := Option.map_eq_some_iff.mp hexec
    obtain ⟨-, rfl⟩ := Prod.mk.inj heq
    exact h.read hsizes hread
  | seek offset s =>
    obtain ⟨-, rfl⟩ := Prod.mk.inj (Option.some.inj hexec)
    exact h.seek hsets
  | clear =>
    obtain ⟨-, rfl⟩ := Prod.mk.inj (Option.some.inj hexec)
    exact ⟨⟨Nat.le_refl _, h.head_le, Nat.le_refl _, Nat.le_refl _⟩, h.capacity_lt, h.head_le, h.head_le⟩
  | setFlag v =>
    obtain ⟨-, rfl⟩ := Prod.mk.inj (Option.some.inj hexec)
    exact ⟨⟨h.read_le, h.write_le, h.lo_le, h.le_hi⟩, h.capacity_lt, h.head_le, h.hi_le⟩
  | clearFlag v =>
    obtain ⟨-, rfl⟩ := Prod.mk.inj (Option.some.inj hexec)
    exact ⟨⟨h.read_le, h.write_le, h.lo_le, h.le_hi⟩, h.capacity_lt, h.head_le, h.hi_le⟩
  | offsetWritepos offset =>
    obtain ⟨-, rfl⟩ := Prod.mk.inj (Option.some.inj hexec)
    exact h.offsetWritepos hsets
  | checkSpace need =>
    obtain ⟨b₁, hspace, heq⟩ := Option.map_eq_some_iff.mp hexec
    obtain ⟨-, rfl⟩ := Prod.mk.inj heq
    exact (h.checkSpace hsizes hspace).1
  | movedFrom =>
    obtain ⟨-, rfl⟩ := Prod.mk.inj (Option.some.inj hexec)
    exact ⟨⟨h.read_le, h.write_le, h.lo_le, h.le_hi⟩, h.capacity_lt, h.head_le, h.hi_le⟩

theorem kept_of_reach {s : Option Marked} (h : (positionSystem.restrict Careful).Reach s) :
    ∀ m, s = some m → Kept m := by
  refine System.Reach.invariant (fun s hstart => ?_) (fun s c s' _ hs hstep => ?_) h
  · rintro m rfl
    cases hstart
  · obtain ⟨hcareful, hstep⟩ := hstep
    rintro m rfl
    cases c with
    | construct capacity headreserved =>
      cases s with
      | none =>
        obtain ⟨fresh, b, hmake, heq⟩ := hstep
        obtain rfl := Option.some.inj heq
        exact Kept.make hcareful.1 hcareful.2 hmake
      | some m => cases hstep
    | call op =>
      cases s with
      | none => cases hstep
      | some m =>
        obtain ⟨fresh, out, b', hexec, heq⟩ := hstep
        obtain rfl := Option.some.inj heq
        exact (hs m rfl).exec hcareful hexec

/-- A careful operation copies nothing outside a storage that is as large as `capacity_`. -/
theorem Kept.exec_isSome {op : Op} (h : Kept m) (hi : Intact m.buffer)
    (hcareful : Careful (some m) (.call op)) : (Buffer.exec fresh m.buffer op).isSome := by
  obtain ⟨hsizes, hinside, hsets⟩ := hcareful
  have hsound : Sound m.buffer m.buffer.readable :=
    ⟨h.ordered, hi, holds_readable h.ordered hi, h.head_le⟩
  have hqueue : op.OnQueue → Fits m.buffer op → (Buffer.exec fresh m.buffer op).isSome := by
    intro hop hfits
    obtain ⟨b', hexec, -⟩ := hsound.exec fresh hop hfits hinside
    rw [hexec]
    rfl
  cases op with
  | seek offset s => rfl
  | offsetWritepos offset => rfl
  | movedFrom => rfl
  | _ => exact hqueue trivial hsizes

/-- The positions of a buffer as long as every operation on it is careful. -/
theorem inRegion_of_careful {m : Marked} (h : (positionSystem.restrict Careful).Reach (some m)) :
    InRegion m ∧ m.buffer.size = m.buffer.writepos_ - m.buffer.readpos_ ∧
      (Intact m.buffer → ∀ fresh op, Careful (some m) (.call op) →
        (exec fresh m.buffer op).isSome) := by
  have hkept := kept_of_reach h m rfl
  exact ⟨hkept.toInRegion, size_eq hkept.ordered,
    fun hi fresh op hcareful => hkept.exec_isSome hi hcareful⟩

theorem make_small (fresh : Nat → UInt8) : make fresh 64 14 = some (blank 14) := by
  unfold make
  exact if_neg (by decide)

/-- A new buffer to which three bytes are written. -/
def threeWritten : Buffer := ((blank 14).writeBack (fun _ => 0) [1, 2, 3]).getD (blank 14)

/-- `seek(1, Current)` on it. -/
theorem inRegion_sought :
    InRegion ⟨threeWritten.seek 1 .Current, 14, 17⟩ ∧ (threeWritten.seek 1 .Current).readable = [2, 3] ∧
      (exec (fun _ => 0) (threeWritten.seek 1 .Current) (.writeBack [7])).isSome := by
  have hwrite : exec (fun _ => 0) (blank 14) (.writeBack [1, 2, 3]) = some (.done, threeWritten) := by
    decide +kernel
  have hmark : mark ⟨blank 14, 14, 14⟩ threeWritten (.writeBack [1, 2, 3]) = ⟨threeWritten, 14, 17⟩ := by
    have hroom : (blank 14).writeablesize ≥ 3 := by decide
    have hpos : threeWritten.writepos_ = 17 := by decide +kernel
    show Marked.mk _ (markSpace _ 3 _).lo (max (markSpace _ 3 _).hi threeWritten.writepos_) = _
    rw [markSpace, if_pos hroom, hpos]
    rfl
  have hseek : exec (fun _ => 0) threeWritten (.seek 1 .Current) =
      some (.position 15, threeWritten.seek 1 .Current) := by decide +kernel
  have hstart : (positionSystem.restrict Careful).Reach (some ⟨blank 14, 14, 14⟩) :=
    .step (a := .construct 64 14) (.start rfl)
      ⟨⟨by decide, by decide⟩, fun _ => 0, _, make_small _, rfl⟩
  have hwritten : (positionSystem.restrict Careful).Reach (some ⟨threeWritten, 14, 17⟩) :=
    .step (a := .call (.writeBack [1, 2, 3])) hstart
      ⟨⟨Or.inl (by decide), trivial, trivial⟩, fun _ => 0, _, _, hwrite, congrArg some hmark.symm⟩
  have hstep : positionSystem.step (some ⟨threeWritten, 14, 17⟩) (.call (.seek 1 .Current))
      (some ⟨threeWritten.seek 1 .Current, 14, 17⟩) := by
    refine ⟨fun _ => 0, .position 15, threeWritten.seek 1 .Current, ?_, rfl⟩
    dsimp only
    exact hseek
  have hsought : (positionSystem.restrict Careful).Reach (some ⟨threeWritten.seek 1 .Current, 14, 17⟩) :=
    .step (a := .call (.seek 1 .Current)) hwritten
      ⟨⟨trivial, trivial, Or.inr (by decide +kernel)⟩, hstep⟩
  have hintact : Intact (threeWritten.seek 1 .Current) := by
    unfold Intact
    decide +kernel
  obtain ⟨hregion, -, hsome⟩ := inRegion_of_careful hsought
  exact ⟨hregion, by decide +kernel, hsome hintact _ _ ⟨Or.inl (by decide +kernel), trivial, trivial⟩⟩

/-- `seek(-1, Begin)` on a new buffer. -/
theorem not_inRegion : ¬∀ m, positionSystem.Reach (some m) → InRegion m := by
  intro h
  have hstart : positionSystem.Reach (some ⟨blank 14, 14, 14⟩) :=
    .step (a := .construct 64 14) (.start rfl) ⟨fun _ => 0, _, make_small _, rfl⟩
  have hseek : positionSystem.Reach (some ⟨(blank 14).seek (-1) .Begin, 14, 14⟩) :=
    .step (a := .call (.seek (-1) .Begin)) hstart ⟨fun _ => 0, _, _, rfl, rfl⟩
  have hle := (h _ hseek).read_le
  exact absurd hle (by decide)

end HappyServer.Buffer
