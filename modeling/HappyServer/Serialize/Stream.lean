import HappyServer.Buffer.Queue
import HappyServer.Serialize.Decoding

/-!
# Decoding value by value

`serialize.unpack_one` reads one value off the front of a buffer; `unpack` reads a whole content.
The first makes a new `buffer_view` for every call and moves the buffer with `seek`, the second
keeps one view.

* Decoding depends on a view only by what is left of it, and fuel beyond that is not used
  (`alike_unpackOne`).
* `doUnpack` is the loop of `unpack` with the values it has read, so that it says where it stopped.
* `seek` leaves the bytes that a view left (`seek_suffix`).
-/

namespace HappyServer.Serialize

open LittleEndian Traced Word

variable {α β : Type}

/-! ## Views with the same bytes left -/

/-- The same value, and the same bytes left, the last ones of `bytes`. -/
def Same (bytes : List UInt8) (r r' : α × BufferView) : Prop :=
  r.1 = r'.1 ∧ r.2.rest = r'.2.rest ∧ r.2.rest <:+ bytes

variable {view view' : BufferView} {bytes bytes' : List UInt8} {n : Nat}

theorem same_mono {m m' : Decode (α × BufferView)} (h : Alike (Same bytes) m m')
    (hsuffix : bytes <:+ bytes') : Alike (Same bytes') m m' :=
  alike_mono h fun _ _ ⟨h1, h2, h3⟩ => ⟨h1, h2, h3.trans hsuffix⟩

theorem size_congr (h : view.rest = view'.rest) : view.size = view'.size := by
  rw [← BufferView.length_rest, h, BufferView.length_rest]

theorem alike_invalidStream {R : α → β → Prop} (h : view.rest = view'.rest) (line : Nat) :
    Alike R (invalidStream view line) (invalidStream view' line) := by
  unfold invalidStream
  rw [size_congr h]
  exact alike_fail _

theorem alike_map {m m' : Decode (α × BufferView)} (f : α → β) (h : Alike (Same bytes) m m') :
    Alike (Same bytes) (m >>= fun r => pure (f r.1, r.2)) (m' >>= fun r => pure (f r.1, r.2)) := by
  apply alike_bind h
  rintro ⟨a, view⟩ ⟨a', view'⟩ ⟨rfl, hrest, hle⟩
  exact alike_pure ⟨rfl, hrest, hle⟩

theorem alike_readOr (h : view.rest = view'.rest) {w : Nat} (line : Nat) (hpos : 0 < w) :
    Alike (fun r r' => Same (view.rest.drop w) r r' ∧ w ≤ view.rest.length)
      (readOr view w line) (readOr view' w line) := by
  rcases readOr_cases view line hpos with ⟨hlt, hread⟩ | ⟨hle, v, hread, hrest⟩
  · rcases readOr_cases view' line hpos with ⟨-, hread'⟩ | ⟨hle', -⟩
    · rw [hread, hread']
      exact alike_invalidStream h line
    · rw [h] at hlt
      omega
  · rcases readOr_cases view' line hpos with ⟨hlt', -⟩ | ⟨-, v', hread', hrest'⟩
    · rw [h] at hle
      omega
    · rw [hread, hread', ← h]
      refine alike_pure ⟨⟨rfl, ?_, ?_⟩, hle⟩
      · rw [hrest, hrest', h]
      · exact hrest ▸ List.suffix_rfl

theorem alike_word (h : view.rest = view'.rest) (w line : Nat) (f : Nat → β) (hpos : 0 < w) :
    Alike (Same view.rest) (readOr view w line >>= fun r => pure (f r.1, r.2))
      (readOr view' w line >>= fun r => pure (f r.1, r.2)) := by
  apply alike_map f
  apply alike_mono (alike_readOr h line hpos)
  rintro r r' ⟨⟨hvalue, hrest, hle⟩, -⟩
  exact ⟨hvalue, hrest, hle.trans (List.drop_suffix w _)⟩

theorem alike_getInteger (h : view.rest = view'.rest) (cookie : Nat) :
    Alike (Same view.rest) (getInteger view cookie) (getInteger view' cookie) := by
  unfold getInteger
  split
  · exact alike_pure ⟨rfl, h, List.suffix_rfl⟩
  split
  · exact alike_word h 1 268 (fun n => (n : Int)) (by decide)
  split
  · exact alike_word h 2 274 (fun n => (n : Int)) (by decide)
  split
  · exact alike_word h 4 280 (fun n => i32 n) (by decide)
  split
  · exact alike_word h 8 286 (fun n => i64 n) (by decide)
  · exact alike_invalidStream h 290

theorem alike_getBuffer (h : view.rest = view'.rest) (len : Int) :
    Alike (Same view.rest) (getBuffer view len) (getBuffer view' len) := by
  unfold getBuffer
  rw [← size_congr h]
  split
  · exact alike_invalidStream h 311
  next hcheck =>
  refine alike_bind (alike_emit _) fun _ _ _ => ?_
  split
  · exact alike_fail _
  next hneg =>
    have hle : len.toNat ≤ view.size := by
      have := i32_le_of_nonneg view.size (by omega)
      omega
    refine alike_pure ⟨?_, ?_, ?_⟩
    all_goals dsimp only
    · rw [view.bytes_eq hle, view'.bytes_eq (by rwa [← size_congr h]), h]
    · rw [BufferView.rest_skip, BufferView.rest_skip, h]
    · rw [BufferView.rest_skip]
      exact List.drop_suffix _ _

theorem alike_getString (h : view.rest = view'.rest) (n : Nat) :
    Alike (Same view.rest) (getString view n) (getString view' n) := by
  unfold getString
  rw [← size_congr h]
  refine alike_bind (alike_emit _) fun _ _ _ => ?_
  exact alike_map (fun bytes => Tree.scalar (.string bytes)) (alike_getBuffer h (i32 n))

theorem alike_tableLength (h : view.rest = view'.rest) (cookie : Nat) :
    Alike (Same view.rest) (tableLength view cookie) (tableLength view' cookie) := by
  unfold tableLength
  split
  · refine alike_bind (alike_emit _) fun _ _ _ => ?_
    apply alike_bind (alike_readOr h 323 Nat.one_pos)
    rintro ⟨b, v⟩ ⟨b', v'⟩ ⟨⟨rfl, hrest, hle⟩, -⟩
    dsimp only at hrest hle ⊢
    split
    · exact alike_invalidStream hrest 326
    · exact same_mono (alike_map (fun declared => (declared, i32 declared))
        (alike_getInteger hrest _)) (hle.trans (List.drop_suffix 1 _))
  · exact alike_pure ⟨rfl, h, List.suffix_rfl⟩

theorem alike_createTable (h : view.rest = view'.rest) (declared narr : Int) :
    Alike (fun _ _ => True) (createTable declared narr view) (createTable declared narr view') := by
  unfold createTable
  rw [size_congr h]
  exact alike_bind (alike_emit _) fun _ _ _ => alike_emit _

section Table

/-- Two readers of one value, on views with the same bytes left, fewer than `n`; they take one. -/
def SameOne (n : Nat) (one one' : BufferView → Decode (Tree × BufferView)) : Prop :=
  ∀ view view', view.rest = view'.rest → view.rest.length < n →
    Alike (fun r r' => Same view.rest r r' ∧ r.2.rest.length < view.rest.length)
      (one view) (one' view')

variable {one one' : BufferView → Decode (Tree × BufferView)} (hone : SameOne n one one')

include hone

theorem alike_unpackElements (h : view.rest = view'.rest) (hn : view.rest.length < n)
    (entries : List (Tree × Tree)) (i k : Nat) :
    Alike (Same view.rest) (unpackElements one view entries i k)
      (unpackElements one' view' entries i k) := by
  induction k generalizing view view' entries i with
  | zero => exact alike_pure ⟨rfl, h, List.suffix_rfl⟩
  | succ k ih =>
    apply alike_bind (hone view view' h hn)
    rintro ⟨v, w⟩ ⟨v', w'⟩ ⟨⟨rfl, hrest, hle⟩, hlt⟩
    dsimp only at hrest hle hlt
    exact same_mono (ih hrest (by omega) _ _) hle

theorem alike_unpackPairs (h : view.rest = view'.rest) (hn : view.rest.length < n)
    {fuel fuel' : Nat} (hfuel : view.rest.length < fuel) (hfuel' : view.rest.length < fuel')
    (entries : List (Tree × Tree)) :
    Alike (Same view.rest) (unpackPairs one fuel view entries)
      (unpackPairs one' fuel' view' entries) := by
  induction fuel generalizing view view' fuel' entries with
  | zero => omega
  | succ fuel ih =>
    cases fuel' with
    | zero => omega
    | succ fuel' =>
      apply alike_bind (hone view view' h hn)
      rintro ⟨k, w⟩ ⟨k', w'⟩ ⟨⟨rfl, hrest, hle⟩, hlt⟩
      dsimp only at hrest hle hlt ⊢
      split
      · exact alike_pure ⟨rfl, hrest, hle⟩
      apply alike_bind (hone w w' hrest (by omega))
      rintro ⟨v, u⟩ ⟨v', u'⟩ ⟨⟨rfl, hrest', hle'⟩, hlt'⟩
      dsimp only at hrest' hle' hlt' ⊢
      split
      · exact alike_fail _
      · exact same_mono (ih hrest' (by omega) (by omega) (by omega) _) (hle'.trans hle)

theorem alike_unpackTable (h : view.rest = view'.rest) (hn : view.rest.length < n)
    {fuel fuel' : Nat} (hfuel : view.rest.length < fuel) (hfuel' : view.rest.length < fuel')
    (cookie : Nat) :
    Alike (Same view.rest) (unpackTable one fuel view cookie)
      (unpackTable one' fuel' view' cookie) := by
  refine alike_frame (alike_bind (alike_emit _) fun _ _ _ => ?_)
  apply alike_bind (alike_tableLength h cookie)
  rintro ⟨⟨declared, narr⟩, w⟩ ⟨_, w'⟩ ⟨rfl, hrest, hle⟩
  dsimp only at hrest hle ⊢
  have hlen := hle.length_le
  refine alike_bind (alike_createTable hrest _ _) fun _ _ _ => ?_
  apply alike_bind (alike_unpackElements hone hrest (by omega) _ _ _)
  rintro ⟨entries, u⟩ ⟨_, u'⟩ ⟨rfl, hrest', hle'⟩
  dsimp only at hrest' hle' ⊢
  have hlen' := hle'.length_le
  exact same_mono (alike_map Tree.table
    (alike_unpackPairs hone hrest' (by omega) (by omega) (by omega) entries)) (hle'.trans hle)

theorem alike_pushValue (h : view.rest = view'.rest) (hn : view.rest.length < n)
    {fuel fuel' : Nat} (hfuel : view.rest.length < fuel) (hfuel' : view.rest.length < fuel')
    (type : UInt8) (cookie : Nat) :
    Alike (Same view.rest) (pushValue one fuel view type cookie)
      (pushValue one' fuel' view' type cookie) := by
  have hlong : ∀ w line, 0 < w → Alike (Same view.rest)
      (readOr view w line >>= fun r => getString r.2 r.1)
      (readOr view' w line >>= fun r => getString r.2 r.1) := by
    intro w line hpos
    apply alike_bind (alike_readOr h line hpos)
    rintro ⟨k, v⟩ ⟨_, v'⟩ ⟨⟨rfl, hrest, hle⟩, -⟩
    exact same_mono (alike_getString hrest k) (hle.trans (List.drop_suffix w _))
  unfold pushValue
  by_cases hnil : type = TYPE_NIL
  · rw [if_pos hnil, if_pos hnil]
    exact alike_pure ⟨rfl, h, List.suffix_rfl⟩
  rw [if_neg hnil, if_neg hnil]
  by_cases hboolean : type = TYPE_BOOLEAN
  · rw [if_pos hboolean, if_pos hboolean]
    exact alike_pure ⟨rfl, h, List.suffix_rfl⟩
  rw [if_neg hboolean, if_neg hboolean]
  by_cases hnumber : type = TYPE_NUMBER
  · rw [if_pos hnumber, if_pos hnumber]
    split
    · exact alike_map (fun bits => Tree.scalar (.number bits))
        (alike_word h 8 298 UInt64.ofNat (by decide))
    · exact alike_map (fun x => Tree.scalar (.integer (Int64.ofInt x))) (alike_getInteger h cookie)
  rw [if_neg hnumber, if_neg hnumber]
  by_cases huserdata : type = TYPE_USERDATA
  · rw [if_pos huserdata, if_pos huserdata]
    exact alike_map (fun p => Tree.scalar (.lightuserdata p))
      (alike_word h 8 305 UInt64.ofNat (by decide))
  rw [if_neg huserdata, if_neg huserdata]
  by_cases hshort : type = TYPE_SHORT_STRING
  · rw [if_pos hshort, if_pos hshort]
    exact alike_getString h cookie
  rw [if_neg hshort, if_neg hshort]
  by_cases hlongString : type = TYPE_LONG_STRING
  · rw [if_pos hlongString, if_pos hlongString]
    split
    · exact hlong 2 375 (by decide)
    split
    · exact alike_invalidStream h 380
    · exact hlong 4 384 (by decide)
  rw [if_neg hlongString, if_neg hlongString]
  by_cases htable : type = TYPE_TABLE
  · rw [if_pos htable, if_pos htable]
    exact alike_unpackTable hone h hn hfuel hfuel' cookie
  · rw [if_neg htable, if_neg htable]
    exact alike_invalidStream h 394

end Table

/-- What one value decodes to is decided by the bytes that are left. -/
theorem alike_unpackOne (fuel fuel' : Nat) : SameOne (min fuel fuel') (unpackOne fuel)
    (unpackOne fuel') := by
  induction fuel generalizing fuel' with
  | zero =>
    intro view view' h hlt
    omega
  | succ fuel ih =>
    cases fuel' with
    | zero =>
      intro view view' h hlt
      omega
    | succ fuel' =>
      intro view view' h hlt
      refine alike_bind (alike_emit _) fun _ _ _ => ?_
      apply alike_bind (alike_readOr h 403 Nat.one_pos)
      rintro ⟨b, w⟩ ⟨_, w'⟩ ⟨⟨rfl, hrest, hle⟩, hone⟩
      dsimp only at hrest hle ⊢
      have hlen := hle.length_le
      rw [List.length_drop] at hlen
      refine alike_mono
        (alike_pushValue (ih fuel') hrest (by omega) (by omega) (by omega) _ _) ?_
      rintro r r' ⟨h1, h2, h3⟩
      have hlen' := h3.length_le
      exact ⟨⟨h1, h2, (h3.trans hle).trans (List.drop_suffix 1 _)⟩, by omega⟩

/-! ## Where the loop of `unpack` stops -/

structure Stopped where
  /-- the values on Lua's stack -/
  stack : List Tree
  /-- the bytes at the start of the last pass -/
  left : List UInt8
  error : Option Error

def Stopped.result (s : Stopped) : Except Error (List Tree) :=
  match s.error with
  | none => .ok s.stack
  | some e => .error e

/-- The loop of `lua_serialize_do_unpack`; each value is pushed on `stack`, which has room. -/
def doUnpack (depth : Nat) : Nat → BufferView → List Tree → Stopped
  | 0, view, stack => ⟨stack, view.rest, some .outOfFuel⟩
  | fuel + 1, view, stack =>
    match view.read 1 with
    | none => ⟨stack, view.rest, none⟩
    | some (bs, br) =>
      let type := UInt8.ofNat (ofBytes bs)
      match (pushValue (unpackOne fuel) fuel br (type &&& 7) (type >>> 3).toNat depth).result with
      | .ok (v, br) => doUnpack depth fuel br (stack ++ [v])
      | .error e => ⟨stack, view.rest, some e⟩

theorem doUnpack_nil {depth fuel : Nat} {stack : List Tree} (h : view.rest = []) :
    doUnpack depth (fuel + 1) view stack = ⟨stack, [], none⟩ := by
  have hread := view.read_none (n := 1) (by rw [h]; exact Nat.one_pos)
  rw [doUnpack, hread, h]

theorem doUnpack_cons {depth fuel : Nat} {stack : List Tree} (h : view.rest ≠ []) :
    doUnpack depth (fuel + 1) view stack =
      match (unpackOne (fuel + 1) view depth).result with
      | .ok (v, br) => doUnpack depth fuel br (stack ++ [v])
      | .error e => ⟨stack, view.rest, some e⟩ := by
  obtain ⟨view', hread, -⟩ := view.read_some Nat.one_pos (List.length_pos_of_ne_nil h)
  rw [doUnpack, unpackOne, readOr]
  simp only [hread, pure_bind]
  rfl

theorem doUnpack_result (depth fuel : Nat) (view : BufferView) (stack : List Tree) :
    (doUnpack depth fuel view stack).result =
      (unpackValues fuel view depth).result.map (stack ++ ·) := by
  induction fuel generalizing view stack with
  | zero => rfl
  | succ fuel ih =>
    by_cases h : view.rest = []
    · rw [doUnpack_nil h, unpackValues_nil h]
      exact congrArg Except.ok (List.append_nil stack).symm
    · rw [doUnpack_cons h, unpackValues_cons h, bind_apply]
      generalize unpackOne (fuel + 1) view depth = o
      obtain ⟨calls, e | ⟨v, br⟩⟩ := o
      · rfl
      · dsimp only [Outcome.bind]
        rw [ih, bind_apply]
        generalize unpackValues fuel br depth = o
        obtain ⟨calls', e | vs⟩ := o
        · rfl
        · exact congrArg Except.ok (List.append_assoc ..)

theorem doUnpack_left (depth fuel : Nat) (view : BufferView) (stack : List Tree)
    (h : (doUnpack depth fuel view stack).error = none) :
    (doUnpack depth fuel view stack).left = [] := by
  induction fuel generalizing view stack with
  | zero => cases h
  | succ fuel ih =>
    by_cases hrest : view.rest = []
    · rw [doUnpack_nil hrest]
    · rw [doUnpack_cons hrest] at h ⊢
      generalize (unpackOne (fuel + 1) view depth).result = result at h ⊢
      obtain e | ⟨v, br⟩ := result
      · cases h
      · exact ih br _ h

/-- `unpack`, with the stack it had built when it raised an error. -/
def unpackStopped (depth : Nat) (data : List UInt8) : Stopped :=
  if data.length = 0 then ⟨[], [], none⟩ else doUnpack depth (data.length + 1) (.make data) []

theorem unpackStopped_result (depth : Nat) (data : List UInt8) :
    (unpackStopped depth data).result = (unpack data depth).result := by
  unfold unpackStopped unpack
  split
  · rfl
  · rw [doUnpack_result]
    cases (unpackValues (data.length + 1) (.make data) depth).result <;> rfl

/-! ## The buffer -/

/-- `serialize.unpack_one(buf)`: what it returns, and the buffer then. -/
def bufferUnpackOne (depth : Nat) (b : Buffer) : Except Error (Option Tree) × Buffer :=
  match (luaUnpackOne b.readable depth).result with
  | .ok none => (.ok none, b)
  | .ok (some (v, n)) => (.ok (some v), b.seek (i32 n) .Current)
  | .error e => (.error e, b)

/-- The `seek` of a call leaves what its view left. -/
theorem seek_suffix {b : Buffer} {data rest : List UInt8} (hb : Buffer.Sound b data) (hlen : data.length < 2 ^ 31)
    (hsuffix : rest <:+ data) :
    Buffer.Sound (b.seek (i32 (data.length - rest.length : Nat)) .Current) rest ∧
      (b.seek (i32 (data.length - rest.length : Nat)) .Current).readpos_ + rest.length =
        b.readpos_ + data.length := by
  have hle := hsuffix.length_le
  have hlength := hb.holds.length_eq
  have hread := hb.ordered.read_le
  have hwrite := hb.ordered.write_le
  have hcap := hb.ordered.capacity_lt
  have hseek := hb.seek
    (show 0 ≤ ((data.length - rest.length : Nat) : Int) by omega) (by omega)
  have hmin : min (data.length - rest.length) data.length = data.length - rest.length :=
    Nat.min_eq_left (Nat.sub_le _ _)
  have hdrop : data.drop (data.length - rest.length) = rest :=
    (List.suffix_iff_eq_drop.mp hsuffix).symm
  have hsound := hb.drop (n := data.length - rest.length) (Nat.sub_le _ _)
  rw [hdrop] at hsound
  rw [i32_of_range _ (by omega) (by omega), hseek, Int.toNat_natCast, hmin]
  refine ⟨hsound, ?_⟩
  show b.readpos_ + (data.length - rest.length) + rest.length = _
  omega

end HappyServer.Serialize
