import HappyServer.Serialize.Unpack

/-!
# Reading back what was written

`Decodes limit m bs a`: from a buffer that begins with `bs`, and that has at most `limit` bytes, `m`
reads `a` and stops at the end of `bs`.  Only strings need a limit, below `2 ^ 31`: `get_buffer` makes
an `int` of the buffer's size.

    wbScalar s = combineType t c :: body → Decodes limit (pushValue · t c) body s
-/

namespace HappyServer.Serialize

open LittleEndian Traced Word

variable {α β : Type}

def Decodes (limit : Nat) (m : BufferView → Decode (α × BufferView)) (bs : List UInt8) (a : α) :
    Prop :=
  ∀ view tail depth, view.rest = bs ++ tail → view.size ≤ limit →
    ∃ view', Returns (m view) depth (a, view') ∧ view'.rest = tail

variable {limit : Nat}

theorem decodes_pure (a : α) : Decodes limit (fun view => pure (a, view)) [] a :=
  fun view _ _ h _ => ⟨view, (returns_pure ..).mpr rfl, h⟩

theorem decodes_bind {m : BufferView → Decode (α × BufferView)}
    {f : α → BufferView → Decode (β × BufferView)} {bs bs' : List UInt8} {a : α} {b : β}
    (hm : Decodes limit m bs a) (hf : Decodes limit (f a) bs' b) :
    Decodes limit (fun view => m view >>= fun r => f r.1 r.2) (bs ++ bs') b := by
  intro view tail depth h hsize
  obtain ⟨view₁, h₁, hrest₁⟩ := hm view (bs' ++ tail) depth (by rw [h, List.append_assoc]) hsize
  have hsize₁ : view₁.size ≤ limit := by
    rw [← BufferView.length_rest] at hsize ⊢
    rw [h, List.append_assoc, List.length_append] at hsize
    rw [hrest₁]
    omega
  obtain ⟨view₂, h₂, hrest₂⟩ := hf view₁ tail depth hrest₁ hsize₁
  exact ⟨view₂, returns_bind.mpr ⟨_, h₁, h₂⟩, hrest₂⟩

/-- What is logged before does not matter. -/
theorem decodes_emit {m : BufferView → Decode (α × BufferView)} {bs : List UInt8} {a : α}
    (c : BufferView → Call) (hm : Decodes limit m bs a) :
    Decodes limit (fun view => emit (c view) >>= fun _ => m view) bs a := by
  intro view tail depth h hsize
  obtain ⟨view', h', hrest⟩ := hm view tail depth h hsize
  exact ⟨view', returns_bind.mpr ⟨(), returns_emit .., h'⟩, hrest⟩

theorem decodes_frame {m : BufferView → Decode (α × BufferView)} {bs : List UInt8} {a : α}
    (hm : Decodes limit m bs a) : Decodes limit (fun view => frame (m view)) bs a :=
  fun view tail depth h hsize => hm view tail (depth + 1) h hsize

theorem decodes_map {m : BufferView → Decode (α × BufferView)} {bs : List UInt8} {a : α}
    (f : α → β) (hm : Decodes limit m bs a) :
    Decodes limit (fun view => m view >>= fun r => pure (f r.1, r.2)) bs (f a) := by
  have := decodes_bind (f := fun a view => pure (f a, view)) hm (decodes_pure (f a))
  rwa [List.append_nil] at this

theorem returns_readOr {view : BufferView} {bs tail : List UInt8} {n : Nat} (line depth : Nat)
    (hlen : bs.length = n) (hpos : 0 < n) (hrest : view.rest = bs ++ tail) :
    ∃ view', Returns (readOr view n line) depth (ofBytes bs, view') ∧ view'.rest = tail := by
  obtain ⟨view', hread, hrest'⟩ := view.read_some hpos (n := n)
    (by rw [hrest, List.length_append]; omega)
  rw [hrest, ← hlen, List.take_left, hlen] at hread
  rw [hrest, ← hlen, List.drop_left] at hrest'
  refine ⟨view', ?_, hrest'⟩
  unfold readOr
  rw [hread]
  exact (returns_pure ..).mpr rfl

theorem decodes_readOr (limit : Nat) (bs : List UInt8) {n : Nat} (line : Nat) (h : bs.length = n)
    (hpos : 0 < n) :
    Decodes limit (fun view => readOr view n line) bs (ofBytes bs) :=
  fun _ _ depth hrest _ => returns_readOr line depth h hpos hrest

/-! ## Type bytes -/

theorem low_of_type : ∀ t < 8, ∀ w < 256,
    ((UInt8.ofNat t ||| UInt8.ofNat w <<< 3) &&& 7 = UInt8.ofNat t) ∧
      ((UInt8.ofNat t ||| UInt8.ofNat w <<< 3) >>> 3).toNat = w % 32 := by
  decide +kernel

theorem combineType_spec (t : UInt8) (v : Int) (ht : t < 8) :
    combineType t v &&& 7 = t ∧ ((combineType t v >>> 3).toNat : Int) = v % 32 := by
  have hw : (UInt8.ofInt v).toNat < 256 := UInt8.toNat_lt _
  have hv : (UInt8.ofInt v).toNat = (v % 256).toNat := by
    show (UInt8.ofNat (v % 2 ^ 8).toNat).toNat = _
    rw [UInt8.toNat_ofNat_of_lt' (by show _ < 256; omega)]
    rfl
  obtain ⟨h1, h2⟩ := low_of_type t.toNat ht _ hw
  rw [UInt8.ofNat_toNat, UInt8.ofNat_toNat] at h1 h2
  refine ⟨h1, ?_⟩
  show (((t ||| UInt8.ofInt v <<< 3) >>> 3).toNat : Int) = _
  rw [h2, hv]
  omega

theorem combineType_low (t : UInt8) (v : Int) (ht : t < 8) : combineType t v &&& 7 = t :=
  (combineType_spec t v ht).1

theorem combineType_high (t : UInt8) (v : Int) (ht : t < 8) :
    ((combineType t v >>> 3).toNat : Int) = v % 32 :=
  (combineType_spec t v ht).2

/-- `unpack_one` reads the type byte and leaves the rest to `push_value`. -/
theorem decodes_unpackOne {t : UInt8} {v : Int} {fuel c : Nat} {body : List UInt8} {w : Tree}
    (ht : t < 8) (hc : v % 32 = c)
    (h : Decodes limit (fun view => pushValue (unpackOne fuel) fuel view t c) body w) :
    Decodes limit (unpackOne (fuel + 1)) (combineType t v :: body) w := by
  have hread := decodes_readOr limit [combineType t v] 403 rfl Nat.one_pos
  have hbyte := ofNat_ofBytes (combineType t v)
  have hcookie : (combineType t v >>> 3).toNat = c := by
    have := combineType_high t v ht
    omega
  let next (b : Nat) (view : BufferView) : Decode (Tree × BufferView) :=
    pushValue (unpackOne fuel) fuel view (UInt8.ofNat b &&& 7) (UInt8.ofNat b >>> 3).toNat
  have hnext : Decodes limit (next (ofBytes [combineType t v])) body w := by
    unfold next
    rw [hbyte, combineType_low t v ht, hcookie]
    exact h
  exact decodes_emit (fun _ => .typeByte) (decodes_bind hread hnext)

/-! ## Numbers -/

theorem pushValue_integer (one : BufferView → Decode (Tree × BufferView)) (fuel : Nat)
    (view : BufferView) (cookie : Nat) (h : cookie < TYPE_NUMBER_REAL) :
    pushValue one fuel view TYPE_NUMBER cookie =
      getInteger view cookie >>= fun r =>
        pure (Tree.scalar (.integer (Int64.ofInt r.1)), r.2) := by
  show (if cookie = TYPE_NUMBER_REAL then _ else _) = _
  rw [if_neg (Nat.ne_of_lt h)]

theorem decodes_word (limit : Nat) {w n : Nat} (line : Nat) (hpos : 0 < w) (h : n < 256 ^ w) :
    Decodes limit (fun view => readOr view w line) (bytesOf w n) n := by
  have := decodes_readOr limit (bytesOf w n) line (length_bytesOf w n) hpos
  rwa [ofBytes_bytesOf_of_lt h] at this

/-- The encodings of integers, as `get_integer` reads them. -/
theorem wbInteger_spec (limit : Nat) (v : Int) (h1 : -2 ^ 63 ≤ v) (h2 : v < 2 ^ 63) :
    ∃ (cookie : Nat) (body : List UInt8),
      wbInteger v = combineType TYPE_NUMBER cookie :: body ∧ cookie < TYPE_NUMBER_REAL ∧
        Decodes limit (fun view => getInteger view cookie) body v := by
  unfold wbInteger
  split
  next h =>
    subst h
    exact ⟨TYPE_NUMBER_ZERO, [], rfl, by decide, decodes_pure 0⟩
  split
  next h =>
    refine ⟨TYPE_NUMBER_QWORD, _, rfl, by decide, ?_⟩
    have := decodes_map (fun n : Nat => i64 n) (decodes_word limit 286 (w := 8) (by decide) (u64_lt v))
    rwa [i64_u64, i64_of_range v h1 h2] at this
  next h =>
  have hv : i32 v = v := (not_not.mp h).symm
  have hdword : Decodes limit (fun view => getInteger view TYPE_NUMBER_DWORD) (bytesOf 4 (u32 v)) v := by
    have := decodes_map (fun n : Nat => i32 n) (decodes_word limit 280 (w := 4) (by decide) (u32_lt v))
    rwa [i32_u32, hv] at this
  split
  · exact ⟨TYPE_NUMBER_DWORD, _, rfl, by decide, hdword⟩
  next hneg =>
  have hnat : ((v.toNat : Nat) : Int) = v := Int.toNat_of_nonneg (by omega)
  split
  next h =>
    refine ⟨TYPE_NUMBER_BYTE, _, rfl, by decide, ?_⟩
    have := decodes_map (fun n : Nat => (n : Int))
      (decodes_word limit 268 (w := 1) (n := v.toNat) (by decide) (by omega))
    rwa [hnat] at this
  split
  next h =>
    refine ⟨TYPE_NUMBER_WORD, _, rfl, by decide, ?_⟩
    have := decodes_map (fun n : Nat => (n : Int))
      (decodes_word limit 274 (w := 2) (n := v.toNat) (by decide) (by omega))
    rwa [hnat] at this
  · exact ⟨TYPE_NUMBER_DWORD, _, rfl, by decide, hdword⟩

/-! ## Strings -/

theorem decodes_getBuffer {bytes : List UInt8} (h : bytes.length < 2 ^ 31)
    (hlimit : limit < 2 ^ 31) :
    Decodes limit (fun view => getBuffer view bytes.length) bytes bytes := by
  intro view tail depth hrest hsize
  have hle : bytes.length ≤ view.size := by
    rw [← BufferView.length_rest, hrest, List.length_append]
    omega
  have hcheck : ¬i32 view.size < bytes.length := by
    rw [i32_of_range _ (by omega) (by omega)]
    omega
  refine ⟨view.skip bytes.length, ?_, ?_⟩
  · show Returns (getBuffer view bytes.length) depth _
    unfold getBuffer
    rw [if_neg hcheck, returns_bind]
    refine ⟨(), returns_emit .., ?_⟩
    rw [if_neg (by omega), Int.toNat_natCast, view.bytes_eq hle, hrest, List.take_left]
    exact (returns_pure ..).mpr rfl
  · rw [BufferView.rest_skip, hrest, List.drop_left]

theorem decodes_getString {bytes : List UInt8} (h : bytes.length < 2 ^ 31)
    (hlimit : limit < 2 ^ 31) :
    Decodes limit (fun view => getString view bytes.length) bytes (.scalar (.string bytes)) := by
  have hlen : i32 (bytes.length : Int) = bytes.length := i32_of_range _ (by omega) (by omega)
  have := decodes_emit (fun view => .stringHeader bytes.length view.size)
    (decodes_map (fun bytes => Tree.scalar (.string bytes)) (decodes_getBuffer h hlimit))
  unfold getString
  rwa [hlen]

/-- The three headers of a string. -/
theorem wbString_cases {bytes : List UInt8} (h : bytes.length < 2 ^ 31) :
    (bytes.length < 32 ∧
      wbString bytes (i32 bytes.length) = combineType TYPE_SHORT_STRING bytes.length :: bytes) ∨
    (bytes.length < 2 ^ 16 ∧ wbString bytes (i32 bytes.length) =
      combineType TYPE_LONG_STRING 2 :: (bytesOf 2 bytes.length ++ bytes)) ∨
    wbString bytes (i32 bytes.length) =
      combineType TYPE_LONG_STRING 4 :: (bytesOf 4 bytes.length ++ bytes) := by
  have hlen : i32 (bytes.length : Int) = bytes.length := i32_of_range _ (by omega) (by omega)
  have hu32 : u32 (bytes.length : Int) = bytes.length := by
    unfold u32
    omega
  have htake : bytes.take (bytes.length : Int).toNat = bytes := by
    rw [Int.toNat_natCast, List.take_length]
  rw [hlen, wbString, htake, hu32, Int.toNat_natCast]
  unfold MAX_COOKIE
  split
  next hlt => exact .inl ⟨by omega, rfl⟩
  split
  next hlt => exact .inr (.inl ⟨by omega, rfl⟩)
  · exact .inr (.inr rfl)

theorem decodes_wbString {bytes : List UInt8} (h : bytes.length < 2 ^ 31) (hlimit : limit < 2 ^ 31)
    (fuel : Nat) :
    Decodes limit (unpackOne (fuel + 1)) (wbString bytes (i32 bytes.length)) (.scalar (.string bytes)) := by
  have hstring := decodes_getString h hlimit
  rcases wbString_cases h with ⟨hlt, heq⟩ | ⟨hlt, heq⟩ | heq
  · rw [heq]
    exact decodes_unpackOne (by decide) (by omega) hstring
  · have hword := decodes_word limit 375 (w := 2) (n := bytes.length) (by decide) hlt
    rw [heq]
    exact decodes_unpackOne (by decide) (c := 2) rfl
      (decodes_bind (f := fun n view => getString view n) hword hstring)
  · have hword := decodes_word limit 384 (w := 4) (n := bytes.length) (by decide) (by omega)
    rw [heq]
    exact decodes_unpackOne (by decide) (c := 4) rfl
      (decodes_bind (f := fun n view => getString view n) hword hstring)

/-! ## Scalars -/

theorem wbNil_eq : wbNil = [combineType TYPE_NIL 0] := by decide

theorem decodes_wbNil (fuel : Nat) : Decodes limit (unpackOne (fuel + 1)) wbNil (.scalar .nil) := by
  rw [wbNil_eq]
  exact decodes_unpackOne (by decide) (c := 0) rfl (decodes_pure (Tree.scalar .nil))

theorem decodes_wbBoolean (b : Bool) (fuel : Nat) :
    Decodes limit (unpackOne (fuel + 1)) (wbBoolean b) (.scalar (.boolean b)) := by
  unfold wbBoolean
  cases b with
  | false => exact decodes_unpackOne (by decide) (c := 0) rfl (decodes_pure _)
  | true => exact decodes_unpackOne (by decide) (c := 1) rfl (decodes_pure _)

theorem decodes_wbInteger (x : Int64) (fuel : Nat) :
    Decodes limit (unpackOne (fuel + 1)) (wbInteger x.toInt) (.scalar (.integer x)) := by
  obtain ⟨cookie, body, hbytes, hcookie, hbody⟩ := wbInteger_spec limit x.toInt x.le_toInt x.toInt_lt
  have hmap := decodes_map (fun x => Tree.scalar (.integer (Int64.ofInt x))) hbody
  rw [Int64.ofInt_toInt] at hmap
  have hmod : (cookie : Int) % 32 = cookie := by
    unfold TYPE_NUMBER_REAL at hcookie
    omega
  rw [hbytes]
  apply decodes_unpackOne (by decide) hmod
  simp only [pushValue_integer _ _ _ _ hcookie]
  exact hmap

theorem decodes_wbReal (bits : UInt64) (fuel : Nat) :
    Decodes limit (unpackOne (fuel + 1)) (wbReal bits) (.scalar (.number bits)) := by
  have hword := decodes_word limit 298 (w := 8) (n := bits.toNat) (by decide) bits.toNat_lt
  have hreal : Decodes limit getReal (bytesOf 8 bits.toNat) bits := by
    have := decodes_map UInt64.ofNat hword
    rwa [UInt64.ofNat_toNat] at this
  apply decodes_unpackOne (by decide) (c := TYPE_NUMBER_REAL) rfl
  exact decodes_map (fun bits => Tree.scalar (.number bits)) hreal

theorem wbPointer_eq (p : UInt64) : wbPointer p = combineType TYPE_USERDATA 0 :: bytesOf 8 p.toNat := by
  have h : TYPE_USERDATA = combineType TYPE_USERDATA 0 := by decide
  rw [← h, wbPointer]

theorem decodes_wbPointer (p : UInt64) (fuel : Nat) :
    Decodes limit (unpackOne (fuel + 1)) (wbPointer p) (.scalar (.lightuserdata p)) := by
  have hword := decodes_word limit 305 (w := 8) (n := p.toNat) (by decide) p.toNat_lt
  have hpointer : Decodes limit getPointer (bytesOf 8 p.toNat) p := by
    have := decodes_map UInt64.ofNat hword
    rwa [UInt64.ofNat_toNat] at this
  rw [wbPointer_eq]
  apply decodes_unpackOne (by decide) (c := 0) rfl
  exact decodes_map (fun p => Tree.scalar (.lightuserdata p)) hpointer

/-- A string is shorter than `2 ^ 31` bytes, and so is all that it is read from. -/
def Scalar.FitsIn (limit : Nat) : Scalar → Prop
  | .string bytes => bytes.length < 2 ^ 31 ∧ limit < 2 ^ 31
  | _ => True

theorem fitsIn_of_fits {s : Scalar} (h : s.Fits) (hlimit : limit < 2 ^ 31) : s.FitsIn limit := by
  cases s with
  | string bytes => exact ⟨h, hlimit⟩
  | _ => trivial

theorem decodes_wbScalar (s : Scalar) (h : s.FitsIn limit) (fuel : Nat) :
    Decodes limit (unpackOne (fuel + 1)) (wbScalar s) (.scalar s) := by
  cases s with
  | nil => exact decodes_wbNil fuel
  | boolean b => exact decodes_wbBoolean b fuel
  | integer x => exact decodes_wbInteger x fuel
  | number bits => exact decodes_wbReal bits fuel
  | lightuserdata p => exact decodes_wbPointer p fuel
  | string bytes => exact decodes_wbString h.1 h.2 fuel

/-! ## The length of a table -/

def ArrayFits (rawlen : Nat) : Prop := 0 ≤ i32 rawlen ∨ rawlen % 32 = 0

/-- An integer after the header is the length. -/
theorem decodes_tableLength (limit : Nat) {v : Int} (h1 : -2 ^ 63 ≤ v) (h2 : v < 2 ^ 63) :
    Decodes limit (fun view => tableLength view 31) (wbInteger v) (v, i32 v) := by
  obtain ⟨cookie, body, hbytes, hcookie, hbody⟩ := wbInteger_spec limit v h1 h2
  have hread := decodes_readOr limit [combineType TYPE_NUMBER cookie] 323 rfl Nat.one_pos
  have hlow := combineType_low TYPE_NUMBER cookie (by decide)
  have hhigh : (combineType TYPE_NUMBER cookie >>> 3).toNat = cookie := by
    have := combineType_high TYPE_NUMBER cookie (by decide)
    unfold TYPE_NUMBER_REAL at hcookie
    omega
  let next (b : Nat) (view : BufferView) : Decode ((Int × Int) × BufferView) :=
    let type := UInt8.ofNat b
    let cookie := (type >>> 3).toNat
    if type &&& 7 ≠ TYPE_NUMBER ∨ cookie = TYPE_NUMBER_REAL then invalidStream view 326
    else getInteger view cookie >>= fun r => pure ((r.1, i32 r.1), r.2)
  have hnext : Decodes limit (next (ofBytes [combineType TYPE_NUMBER cookie])) body (v, i32 v) := by
    have hok : ¬(combineType TYPE_NUMBER cookie &&& 7 ≠ TYPE_NUMBER ∨ cookie = TYPE_NUMBER_REAL) := by
      rintro (hne | heq)
      · exact hne hlow
      · exact absurd heq (Nat.ne_of_lt hcookie)
    unfold next
    rw [ofNat_ofBytes]
    simp only [hhigh, if_neg hok]
    exact decodes_map (fun x : Int => (x, i32 x)) hbody
  rw [hbytes]
  exact decodes_emit (fun _ => .typeByte) (decodes_bind hread hnext)

theorem wbArrayHeader_spec (limit rawlen : Nat) (h : ArrayFits rawlen) :
    ∃ (v : Int) (cookie : Nat) (body : List UInt8) (declared arraySize : Int),
      wbArrayHeader (i32 rawlen) = combineType TYPE_TABLE v :: body ∧ v % 32 = cookie ∧
        arraySize.toNat = (i32 rawlen).toNat ∧
        Decodes limit (fun view => tableLength view cookie) body (declared, arraySize) := by
  have hrange := i32_range rawlen
  unfold wbArrayHeader
  split
  next hlong =>
    unfold MAX_COOKIE at hlong
    have hself : i32 (i32 rawlen) = i32 rawlen := i32_of_range _ hrange.1 hrange.2
    have := decodes_tableLength limit (v := i32 rawlen) (by omega) (by omega)
    rw [hself] at this
    exact ⟨MAX_COOKIE - 1, 31, _, _, _, rfl, rfl, rfl, this⟩
  next hshort =>
    unfold MAX_COOKIE at hshort
    -- a negative size has the five bits of an empty array, or none
    have hmod : 0 ≤ i32 rawlen ∨ i32 rawlen % 32 = 0 := by
      unfold ArrayFits at h
      unfold i32 at *
      omega
    have hcookie : (((i32 rawlen % 32).toNat : Nat) : Int) = i32 rawlen % 32 := by omega
    generalize (i32 rawlen % 32).toNat = cookie at hcookie
    refine ⟨i32 rawlen, cookie, [], cookie, cookie, rfl, hcookie.symm, by omega, ?_⟩
    simp only [tableLength_short _ (show cookie < 31 by omega)]
    exact decodes_pure ((cookie : Int), (cookie : Int))

/-- The parts of a table, one after the other. -/
theorem decodes_unpackTable {one : BufferView → Decode (Tree × BufferView)} {fuel cookie : Nat}
    {body bs bs' : List UInt8} {declared arraySize : Int} {entries entries' : List (Tree × Tree)}
    (hlength : Decodes limit (fun view => tableLength view cookie) body (declared, arraySize))
    (helements : Decodes limit (fun view => unpackElements one view [] 1 arraySize.toNat) bs entries)
    (hpairs : Decodes limit (fun view => unpackPairs one fuel view entries) bs' entries') :
    Decodes limit (fun view => unpackTable one fuel view cookie) (body ++ (bs ++ bs'))
      (.table entries') := by
  let elements (arraySize : Int) (view : BufferView) : Decode (Tree × BufferView) :=
    unpackElements one view [] 1 arraySize.toNat >>= fun r =>
      unpackPairs one fuel r.2 r.1 >>= fun r => pure (Tree.table r.1, r.2)
  let build (length : Int × Int) (view : BufferView) : Decode (Tree × BufferView) :=
    createTable length.1 length.2 view >>= fun _ => elements length.2 view
  have helements' : Decodes limit (elements arraySize) (bs ++ bs') (.table entries') :=
    decodes_bind (f := fun entries view =>
      unpackPairs one fuel view entries >>= fun r => pure (Tree.table r.1, r.2))
      helements (decodes_map Tree.table hpairs)
  have hbuild : Decodes limit (build (declared, arraySize)) (bs ++ bs') (.table entries') := by
    have := decodes_emit (fun view => .tableHeader declared view.size)
      (decodes_emit (fun view => .createtable declared arraySize view.size) helements')
    unfold build createTable
    simp only [bind_assoc]
    exact this
  exact decodes_frame (decodes_emit (fun _ => .unpackTable) (decodes_bind hlength hbuild))

end HappyServer.Serialize
