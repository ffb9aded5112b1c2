import HappyServer.Buffer.Steady

/-!
# The copies of a buffer

`spaceCopies b need` are the calls of `memcpy` in `check_space`, and `writeCopy` is the one that
`write_back` makes afterwards.  A `memcpy` must stay inside the arrays and its ranges must not overlap.

    CopiesSound b need ↔ CopiesApart b need        in every state of a run of such steps

What is moved to the front overlaps with where it was if less was read than is left to read.
-/

namespace HappyServer.Buffer

open Block Word

/-- An array: that of the buffer, one just allocated, or the caller's. -/
inductive Area where
  | data
  | new (length : Nat)
  | input (length : Nat)
deriving DecidableEq

structure MemCpy where
  dst : Area
  dstPos : Nat
  src : Area
  srcPos : Nat
  count : Nat

def Area.length (b : Buffer) : Area → Nat
  | .data => b.storage.length
  | .new n => n
  | .input n => n

structure MemCpy.Inside (b : Buffer) (c : MemCpy) : Prop where
  dst : c.dstPos + c.count ≤ c.dst.length b
  src : c.srcPos + c.count ≤ c.src.length b

def MemCpy.Disjoint (c : MemCpy) : Prop :=
  c.dst = c.src → c.dstPos + c.count ≤ c.srcPos ∨ c.srcPos + c.count ≤ c.dstPos

/-- The calls in `check_space`. -/
def spaceCopies (b : Buffer) (need : Nat) : List MemCpy :=
  if b.writeablesize ≥ need then []
  else if b.grows need then
    [⟨.new (nextPow2 (add64 b.writepos_ need)), 0, .data, 0, b.writepos_⟩]
  else if b.size ≠ 0 then [⟨.data, b.headreserved_, .data, b.readpos_, b.size⟩]
  else []

/-- The call in `write_back`, after `check_space`. -/
def writeCopy (b : Buffer) (n : Nat) : MemCpy := ⟨.data, b.writepos_, .input n, 0, n⟩

variable {fresh : Nat → UInt8} {b b' : Buffer} {need : Nat} {data : List UInt8}

/-! ## What the copies have to do with the results -/

theorem grow_isSome_iff :
    (b.grow fresh need).isSome ↔
      b.writepos_ ≤ b.storage.length ∧ b.writepos_ ≤ nextPow2 (add64 b.writepos_ need) := by
  constructor
  · intro h
    obtain ⟨b', hgrow⟩ := Option.isSome_iff_exists.mp h
    obtain ⟨heap, hstore, hold, -⟩ := grow_some hgrow
    obtain ⟨hle, -⟩ := store_some hstore
    rw [List.length_take, Nat.min_eq_left hold, List.length_map, List.length_range] at hle
    exact ⟨hold, by omega⟩
  · rintro ⟨hold, hnew⟩
    obtain ⟨b', hgrow, -⟩ := grow_of_le fresh hold hnew
    exact Option.isSome_iff_exists.mpr ⟨b', hgrow⟩

theorem compact_isSome_iff :
    b.compact.isSome ↔ b.size = 0 ∨ b.readpos_ + b.size ≤ b.storage.length ∧
      b.headreserved_ + b.size ≤ b.storage.length := by
  constructor
  · intro h
    obtain ⟨b', hcompact⟩ := Option.isSome_iff_exists.mp h
    obtain ⟨hmoved, -⟩ := compact_some hcompact
    by_cases h0 : b.size = 0
    · exact Or.inl h0
    · obtain ⟨bytes, hload, hstore⟩ := hmoved h0
      obtain ⟨hsrc, -⟩ := load_some hload
      obtain ⟨hdst, -⟩ := store_some hstore
      have := length_load hload
      exact Or.inr ⟨hsrc, by omega⟩
  · rintro (h0 | ⟨hold, hnew⟩)
    · unfold compact moveReadable
      rw [if_neg (not_not.mpr h0)]
      rfl
    · obtain ⟨b', hcompact, -⟩ := compact_of_le hold hnew
      exact Option.isSome_iff_exists.mpr ⟨b', hcompact⟩

/-- `check_space` has a result exactly if its copies are inside the arrays. -/
theorem checkSpace_isSome_iff :
    (b.checkSpace fresh need).isSome ↔ ∀ c ∈ spaceCopies b need, c.Inside b := by
  unfold checkSpace spaceCopies
  by_cases hneed : b.writeablesize ≥ need
  · rw [if_pos hneed, if_pos hneed]
    exact ⟨fun _ c hc => absurd hc List.not_mem_nil, fun _ => rfl⟩
  rw [if_neg hneed, if_neg hneed]
  by_cases hgrows : b.grows need
  · rw [if_pos hgrows, if_pos hgrows, grow_isSome_iff, List.forall_mem_singleton]
    constructor
    · rintro ⟨hold, hnew⟩
      refine ⟨?_, ?_⟩
      · show 0 + b.writepos_ ≤ nextPow2 (add64 b.writepos_ need)
        omega
      · show 0 + b.writepos_ ≤ b.storage.length
        omega
    · rintro ⟨hdst, hsrc⟩
      dsimp only [Area.length] at hdst hsrc
      exact ⟨by omega, by omega⟩
  rw [if_neg hgrows, if_neg hgrows, compact_isSome_iff]
  by_cases h0 : b.size = 0
  · rw [if_neg (not_not.mpr h0)]
    exact ⟨fun _ c hc => absurd hc List.not_mem_nil, fun _ => Or.inl h0⟩
  · rw [if_pos h0, List.forall_mem_singleton]
    constructor
    · rintro (h | ⟨hsrc, hdst⟩)
      · exact absurd h h0
      · exact ⟨hdst, hsrc⟩
    · rintro ⟨hdst, hsrc⟩
      exact Or.inr ⟨hsrc, hdst⟩

/-- And `write_back` if the copy that comes then is, too. -/
theorem writeBack_isSome_iff (hdata : data.length ≠ 0) :
    (b.writeBack fresh data).isSome ↔
      ∃ b', b.checkSpace fresh data.length = some b' ∧ (writeCopy b' data.length).Inside b' := by
  unfold writeBack
  rw [if_neg hdata]
  cases hspace : b.checkSpace fresh data.length with
  | none =>
    constructor
    · intro h
      cases h
    · rintro ⟨b', h, -⟩
      cases h
  | some b₁ =>
    show ((b₁.memcpy b₁.writepos_ data).bind _).isSome ↔ _
    constructor
    · intro h
      obtain ⟨b', hb'⟩ := Option.isSome_iff_exists.mp h
      obtain ⟨b₂, hcopy, -⟩ := Option.bind_eq_some_iff.mp hb'
      obtain ⟨hle, -⟩ := store_some (memcpy_some hcopy).1
      exact ⟨b₁, rfl, hle, Nat.le_of_eq (Nat.zero_add _)⟩
    · rintro ⟨b', heq, hinside⟩
      obtain rfl := Option.some.inj heq
      have hle : b₁.writepos_ + data.length ≤ b₁.storage.length := hinside.dst
      obtain ⟨b₂, hcopy, -⟩ := b₁.memcpy_of_le hle
      rw [hcopy]
      rfl

/-! ## Exactly when -/

def CopiesSound (b : Buffer) (need : Nat) : Prop :=
  (∀ c ∈ spaceCopies b need, c.Inside b ∧ c.Disjoint) ∧
    ∀ fresh b', b.checkSpace fresh need = some b' →
      (writeCopy b' need).Inside b' ∧ (writeCopy b' need).Disjoint

/-- `need` bytes are found by moving what can be read to the reserved head. -/
def Compacts (b : Buffer) (need : Nat) : Prop := ¬need ≤ b.writeablesize ∧ ¬b.grows need

instance (b : Buffer) (need : Nat) : Decidable (b.Compacts need) :=
  inferInstanceAs (Decidable (¬_ ∧ ¬_))

/-- No size overflows, and what is moved to the head does not overlap with it. -/
def CopiesApart (b : Buffer) (need : Nat) : Prop :=
  b.Room need ∧ (b.Compacts need → b.size = 0 ∨ b.headreserved_ + b.size ≤ b.readpos_ ∨
    b.readpos_ + b.size ≤ b.headreserved_)

instance (b : Buffer) (need : Nat) : Decidable (CopiesApart b need) :=
  inferInstanceAs (Decidable (_ ∧ (_ → _)))

theorem writeCopy_disjoint (b : Buffer) (n : Nat) : (writeCopy b n).Disjoint := by
  intro h
  cases h

theorem writeCopy_inside (hi : Intact b) : (writeCopy b need).Inside b ↔ b.writepos_ + need ≤ b.capacity_ := by
  unfold Intact at hi
  constructor
  · intro h
    have hle : b.writepos_ + need ≤ b.storage.length := h.dst
    omega
  · intro h
    exact ⟨by show b.writepos_ + need ≤ b.storage.length; omega, Nat.le_of_eq (Nat.zero_add need)⟩

section Ways

variable (h : Steady b)

include h

theorem copiesSound_space (hneed : need ≤ b.writeablesize) : CopiesSound b need := by
  unfold CopiesSound spaceCopies checkSpace
  rw [if_pos hneed]
  refine ⟨fun c hc => absurd hc List.not_mem_nil, fun fresh b' hspace => ?_⟩
  rw [if_pos hneed] at hspace
  obtain rfl := Option.some.inj hspace
  refine ⟨(writeCopy_inside h.intact).mpr ?_, writeCopy_disjoint b need⟩
  have hspace := writeablesize_eq h.toOrdered
  have hwrite := h.write_le
  omega

theorem copiesSound_grow (hneed : ¬need ≤ b.writeablesize) (hgrows : b.grows need) :
    CopiesSound b need ↔ b.writepos_ + need ≤ nextPow2 (add64 b.writepos_ need) := by
  have hi := h.intact
  have hwrite := h.write_le
  unfold Intact at hi
  have hspace : ∀ fresh, b.checkSpace fresh need = b.grow fresh need := by
    intro fresh
    unfold checkSpace
    rw [if_neg hneed, if_pos hgrows]
  have hwritten : ∀ fresh b', b.grow fresh need = some b' →
      ((writeCopy b' need).Inside b' ↔ b.writepos_ + need ≤ nextPow2 (add64 b.writepos_ need)) := by
    intro fresh b' hgrow
    rw [writeCopy_inside (h.checkSpace ((hspace fresh).trans hgrow)).intact]
    obtain ⟨heap, -, -, rfl⟩ := grow_some hgrow
    exact Iff.rfl
  constructor
  · rintro ⟨hcopies, hwrite'⟩
    have hsome : (b.checkSpace (fun _ => 0) need).isSome :=
      checkSpace_isSome_iff.mpr fun c hc => (hcopies c hc).1
    obtain ⟨b', hb'⟩ := Option.isSome_iff_exists.mp hsome
    exact (hwritten _ b' ((hspace _).symm.trans hb')).mp (hwrite' _ b' hb').1
  · intro hle
    refine ⟨fun c hc => ⟨?_, ?_⟩, fun fresh b' hb' => ?_⟩
    · have hsome : (b.checkSpace (fun _ => 0) need).isSome := by
        rw [hspace]
        exact grow_isSome_iff.mpr ⟨by omega, by omega⟩
      exact checkSpace_isSome_iff.mp hsome c hc
    · unfold spaceCopies at hc
      rw [if_neg hneed, if_pos hgrows] at hc
      obtain rfl := List.mem_singleton.mp hc
      intro heq
      cases heq
    · exact ⟨(hwritten fresh b' ((hspace fresh).symm.trans hb')).mpr hle, writeCopy_disjoint b' need⟩

theorem copiesSound_compact (hneed : ¬need ≤ b.writeablesize) (hgrows : ¬b.grows need) :
    CopiesSound b need ↔ need + b.headreserved_ < 2 ^ 64 ∧ (b.size = 0 ∨
      b.headreserved_ + b.size ≤ b.readpos_ ∨ b.readpos_ + b.size ≤ b.headreserved_) := by
  have hi := h.intact
  have hread := h.read_le
  have hwrite := h.write_le
  have hcap := h.capacity_lt
  have hsize := size_eq h.toOrdered
  unfold Intact at hi
  have hspace : ∀ fresh, b.checkSpace fresh need = b.compact := by
    intro fresh
    unfold checkSpace
    rw [if_neg hneed, if_neg hgrows]
  have hwritten : ∀ b', b.compact = some b' → b.headreserved_ + b.size ≤ b.capacity_ →
      ((writeCopy b' need).Inside b' ↔ b.headreserved_ + b.size + need ≤ b.capacity_) := by
    intro b' hcompact hle
    rw [writeCopy_inside (h.checkSpace ((hspace fun _ => 0).trans hcompact)).intact]
    obtain ⟨-, -, -, -, hcapacity, -, hw⟩ := compact_some hcompact
    rw [hcapacity, hw, add64_of_lt _ _ (by omega)]
  have hsome : b.compact.isSome ↔ ∀ c ∈ spaceCopies b need, c.Inside b := by
    rw [← hspace fun _ => 0, checkSpace_isSome_iff]
  have hcopies : spaceCopies b need =
      if b.size ≠ 0 then [⟨.data, b.headreserved_, .data, b.readpos_, b.size⟩] else [] := by
    unfold spaceCopies
    rw [if_neg hneed, if_neg hgrows]
  constructor
  · rintro ⟨hsound, hwrite'⟩
    have hcompact := hsome.mpr fun c hc => (hsound c hc).1
    have hle : b.headreserved_ + b.size ≤ b.capacity_ := by
      have hhead := h.head_le
      rcases compact_isSome_iff.mp hcompact with h0 | ⟨-, hdst⟩
      · omega
      · omega
    obtain ⟨b', hb'⟩ := Option.isSome_iff_exists.mp hcompact
    have hfits := (hwritten b' hb' hle).mp (hwrite' (fun _ => 0) b' ((hspace _).trans hb')).1
    refine ⟨by omega, ?_⟩
    by_cases h0 : b.size = 0
    · exact Or.inl h0
    · rw [hcopies, if_pos h0] at hsound
      exact Or.inr ((hsound _ (List.mem_singleton_self _)).2 rfl)
  · rintro ⟨hsum, hapart⟩
    have hfits := compact_fits h.toOrdered hgrows hsum
    refine ⟨fun c hc => ⟨?_, ?_⟩, fun fresh b' hb' => ?_⟩
    · refine hsome.mp (compact_isSome_iff.mpr (Or.inr ?_)) c hc
      omega
    · rw [hcopies] at hc
      split at hc
      next h0 =>
        obtain rfl := List.mem_singleton.mp hc
        exact fun _ => hapart.resolve_left h0
      · exact absurd hc List.not_mem_nil
    · have hcompact := (hspace fresh).symm.trans hb'
      exact ⟨(hwritten b' hcompact (by omega)).mpr hfits, writeCopy_disjoint b' need⟩

end Ways

theorem copiesSound_iff (h : Steady b) : CopiesSound b need ↔ CopiesApart b need := by
  unfold CopiesApart Room Compacts
  by_cases hneed : need ≤ b.writeablesize
  · exact ⟨fun _ => ⟨Or.inl hneed, fun hc => absurd hneed hc.1⟩, fun _ => copiesSound_space h hneed⟩
  by_cases hgrows : b.grows need
  · rw [copiesSound_grow h hneed hgrows]
    constructor
    · intro hle
      exact ⟨Or.inr (Or.inl ⟨hgrows, hle⟩), fun hc => absurd hgrows hc.2⟩
    · rintro ⟨hroom | ⟨-, hle⟩ | ⟨hnot, -⟩, -⟩
      · exact absurd hroom hneed
      · exact hle
      · exact absurd hgrows hnot
  · rw [copiesSound_compact h hneed hgrows]
    constructor
    · rintro ⟨hsum, hapart⟩
      exact ⟨Or.inr (Or.inr ⟨hgrows, hsum⟩), fun _ => hapart⟩
    · rintro ⟨hroom | ⟨hgrow, -⟩ | ⟨-, hsum⟩, hapart⟩
      · exact absurd hroom hneed
      · exact absurd hgrow hgrows
      · exact ⟨hsum, hapart ⟨hneed, hgrows⟩⟩

/-! ## Every run -/

/-- A buffer before and after the `check_space` of its constructor, and from then on. -/
def bufferSystem : System Buffer Op where
  start b := ∃ headreserved ≤ STACK_CAPACITY, b = blank headreserved ∨
    ∃ fresh, ∃ capacity : UInt64, make fresh capacity.toNat headreserved = some b
  step b op b' := op.OnQueue ∧ ∃ fresh out, exec fresh b op = some (out, b')

/-- The copies of the operation are sound, and `init` reserves inside the storage. -/
def CopiesSoundly (b : Buffer) : Op → Prop
  | .init capacity headreserved => headreserved.toNat ≤ b.capacity_ ∧
      CopiesApart (b.reserve headreserved.toNat) capacity.toNat
  | .writeBack data => CopiesApart b data.length
  | .checkSpace need => CopiesApart b need.toNat
  | _ => True

theorem steady_of_reach {ok : Buffer → Op → Prop} (hok : ∀ b op, ok b op → ReservesInside b op)
    (h : (bufferSystem.restrict ok).Reach b) : Steady b := by
  refine System.Reach.invariant (fun b hstart => ?_) (fun b op b' _ hb hstep => ?_) h
  · obtain ⟨headreserved, hle, rfl | ⟨fresh, capacity, hmake⟩⟩ := hstart
    · exact steady_blank hle
    · exact Steady.make hle hmake
  · obtain ⟨hcareful, hop, fresh, out, hexec⟩ := hstep
    exact hb.exec hop (hok b op hcareful) hexec

theorem reservesInside_of_copies (b : Buffer) (op : Op) (h : CopiesSoundly b op) :
    ReservesInside b op := by
  cases op with
  | init capacity headreserved => exact h.1
  | _ => trivial

/-- **Copies inside the buffer.**  In a run whose copies were sound, the next ones are exactly if no size
overflows and what is moved to the front does not overlap with where it was. -/
theorem copies_sound_iff (h : (bufferSystem.restrict CopiesSoundly).Reach b) (need : UInt64) :
    CopiesSound b need.toNat ↔ CopiesApart b need.toNat :=
  copiesSound_iff (steady_of_reach reservesInside_of_copies h)

theorem exec_writeBack :
    exec (fun _ => 0) (blank 0) (.writeBack (List.replicate 200 0)) =
      some (.done, { blank 0 with writepos_ := 200 }) := by decide +kernel

/-- 200 bytes are written and 150 are read. -/
def mostlyRead : Buffer := { blank 0 with readpos_ := 150, writepos_ := 200 }

theorem reach_mostlyRead : (bufferSystem.restrict CopiesSoundly).Reach mostlyRead := by
  have hstart : (bufferSystem.restrict CopiesSoundly).start (blank 0) := ⟨0, by decide, Or.inl rfl⟩
  have hread : exec (fun _ => 0) { blank 0 with writepos_ := 200 } (.read 150) =
      some (.bytes (some (List.replicate 150 0)), mostlyRead) := by decide +kernel
  have hcopies : CopiesSoundly (blank 0) (.writeBack (List.replicate 200 0)) := by
    show CopiesApart (blank 0) (List.replicate 200 (0 : UInt8)).length
    rw [List.length_replicate]
    decide
  have hwritten : (bufferSystem.restrict CopiesSoundly).Reach { blank 0 with writepos_ := 200 } :=
    (System.Reach.start hstart).step (a := .writeBack (List.replicate 200 0))
      ⟨hcopies, trivial, _, _, exec_writeBack⟩
  exact hwritten.step (a := .read 150) ⟨trivial, trivial, _, _, hread⟩

/-- More bytes than the stack holds; 60 where 16 are free at the back, and 50 are moved by 150. -/
theorem copies_sound_moved :
    CopiesSound (blank 14) 500 ∧ Compacts mostlyRead 60 ∧ CopiesSound mostlyRead 60 := by
  have hstart : (bufferSystem.restrict CopiesSoundly).start (blank 14) := ⟨14, by decide, Or.inl rfl⟩
  have hgrow := (copies_sound_iff (System.Reach.start hstart) 500).mpr (by decide)
  have hmove := (copies_sound_iff reach_mostlyRead 60).mpr (by decide)
  exact ⟨hgrow, by decide, hmove⟩

/-- 200 bytes are written and 20 are read. -/
def partlyRead : Buffer := { blank 0 with readpos_ := 20, writepos_ := 200 }

theorem reach_partlyRead : bufferSystem.Reach partlyRead := by
  have hstart : bufferSystem.start (blank 0) := ⟨0, by decide, Or.inl rfl⟩
  have hread : exec (fun _ => 0) { blank 0 with writepos_ := 200 } (.read 20) =
      some (.bytes (some (List.replicate 20 0)), partlyRead) := by decide +kernel
  have hwritten : bufferSystem.Reach { blank 0 with writepos_ := 200 } :=
    (System.Reach.start hstart).step (a := .writeBack (List.replicate 200 0))
      ⟨trivial, _, _, exec_writeBack⟩
  exact hwritten.step (a := .read 20) ⟨trivial, _, _, hread⟩

/-- 17 more bytes, where 16 are free at the back: 180 bytes are moved by 20. -/
theorem not_copies_sound : ¬∀ b, bufferSystem.Reach b → ∀ need : UInt64, CopiesSound b need.toNat := by
  intro h
  have hsteady : Steady partlyRead :=
    ⟨⟨by decide, by decide, by decide⟩, List.length_replicate, by decide⟩
  have := (copiesSound_iff hsteady).mp (h partlyRead reach_partlyRead 17)
  revert this
  decide

end HappyServer.Buffer
