import HappyServer.Lib.LittleEndian
import HappyServer.Lib.Traced
import HappyServer.Lib.Word
import HappyServer.Serialize.BufferView
import HappyServer.Serialize.Pack

/-!
# Unpacking (`magic/lua_serialize.cpp`)

`unpack_one`, `push_value` and `unpack_table` call each other: the first takes the fuel and
the others take the first as an argument.  Every call reads a byte, so more fuel than bytes is
enough.  Memory and Lua's stack suffice: the calls of `luaL_checkstack` in `unpack_table` and in the
loop, which end the decoding where it fails, are in `UnpackStack`.

What is logged (`Call`), each with the number of `unpack_table` around it:

* the reading of a type byte, the entry of `unpack_table`;
* the headers, with the length they declare and the number of bytes after them;
* the calls of `lua_pushlstring` and `lua_createtable`, with their length.
-/

namespace HappyServer.Serialize

open LittleEndian Traced Word

inductive Error where
  | invalidStream (len : Int) (line : Nat)
  /-- `lua_pushlstring` of `2 ^ 63` bytes or more -/
  | tooBig
  | indexNaN
  | outOfFuel
deriving DecidableEq

def Error.text : Error → String
  | .invalidStream len line =>
    "Invalid serialize stream " ++ toString len ++ " (line:" ++ toString line ++ ")"
  | .tooBig => "memory allocation error: block too big"
  | .indexNaN => "table index is NaN"
  | .outOfFuel => ""

inductive Call where
  | typeByte
  | unpackTable
  | stringHeader (declared left : Nat)
  | pushlstring (len : Int) (left : Nat)
  | tableHeader (declared : Int) (left : Nat)
  | createtable (declared narr : Int) (left : Nat)
deriving DecidableEq

abbrev Decode := Traced Error Call

variable {α : Type}

def invalidStream (view : BufferView) (line : Nat) : Decode α :=
  fail (.invalidStream (i32 view.size) line)

theorem ofNat_ofBytes (b : UInt8) : UInt8.ofNat (ofBytes [b]) = b := by
  rw [ofBytes, ofBytes, Nat.mul_zero, Nat.add_zero, UInt8.ofNat_toNat]

/-- `if (!buf->read(&n)) invalid_stream(L, buf);` -/
def readOr (view : BufferView) (n line : Nat) : Decode (Nat × BufferView) :=
  match view.read n with
  | some (bs, view) => pure (ofBytes bs, view)
  | none => invalidStream view line

def getInteger (view : BufferView) (cookie : Nat) : Decode (Int × BufferView) :=
  if cookie = TYPE_NUMBER_ZERO then pure (0, view)
  else if cookie = TYPE_NUMBER_BYTE then do
    let (n, view) ← readOr view 1 268
    pure (n, view)
  else if cookie = TYPE_NUMBER_WORD then do
    let (n, view) ← readOr view 2 274
    pure (n, view)
  else if cookie = TYPE_NUMBER_DWORD then do
    let (n, view) ← readOr view 4 280
    pure (i32 n, view)
  else if cookie = TYPE_NUMBER_QWORD then do
    let (n, view) ← readOr view 8 286
    pure (i64 n, view)
  else invalidStream view 290

def getReal (view : BufferView) : Decode (UInt64 × BufferView) := do
  let (n, view) ← readOr view 8 298
  pure (UInt64.ofNat n, view)

def getPointer (view : BufferView) : Decode (UInt64 × BufferView) := do
  let (n, view) ← readOr view 8 305
  pure (UInt64.ofNat n, view)

def getBuffer (view : BufferView) (len : Int) : Decode (List UInt8 × BufferView) :=
  if i32 view.size < len then invalidStream view 311
  else do
    emit (.pushlstring len view.size)
    -- a negative `int` is a `size_t` of `2 ^ 63` or more
    if len < 0 then fail .tooBig
    else pure (view.bytes len.toNat, view.skip len.toNat)

/-- `get_buffer(L, buf, n)`, with the conversion of `n` to `int`. -/
def getString (view : BufferView) (n : Nat) : Decode (Tree × BufferView) := do
  emit (.stringHeader n view.size)
  let (bytes, view) ← getBuffer view (i32 n)
  pure (.scalar (.string bytes), view)

/-- The length a table's header declares, and `array_size`. -/
def tableLength (view : BufferView) (cookie : Nat) : Decode ((Int × Int) × BufferView) :=
  if (cookie : Int) = MAX_COOKIE - 1 then do
    emit .typeByte
    let (b, view) ← readOr view 1 323
    let type := UInt8.ofNat b
    let cookie := (type >>> 3).toNat
    if type &&& 7 ≠ TYPE_NUMBER ∨ cookie = TYPE_NUMBER_REAL then invalidStream view 326
    else do
      let (declared, view) ← getInteger view cookie
      pure ((declared, i32 declared), view)
  else pure ((cookie, cookie), view)

theorem tableLength_short (view : BufferView) {cookie : Nat} (h : cookie < 31) :
    tableLength view cookie = pure (((cookie : Int), (cookie : Int)), view) := by
  unfold tableLength MAX_COOKIE
  rw [if_neg (by omega)]

def createTable (declared narr : Int) (view : BufferView) : Decode Unit := do
  emit (.tableHeader declared view.size)
  emit (.createtable declared narr view.size)

theorem createTable_calls (declared narr : Int) (view : BufferView) (depth : Nat) :
    (createTable declared narr view depth).calls =
      [(depth, .tableHeader declared view.size), (depth, .createtable declared narr view.size)] := rfl

def Tree.isNaN : Tree → Bool
  | .scalar (.number bits) => Serialize.isNaN bits
  | _ => false

section Table

variable (one : BufferView → Decode (Tree × BufferView))

/-- The elements `i, i + 1, …`, as many as the second number says. -/
def unpackElements (view : BufferView) (entries : List (Tree × Tree)) (i : Nat) :
    Nat → Decode (List (Tree × Tree) × BufferView)
  | 0 => pure (entries, view)
  | n + 1 => do
    let (v, view) ← one view
    let entries := rawset entries (.scalar (.integer (Int64.ofNat i))) v
    unpackElements view entries (i + 1) n

def unpackPairs : Nat → BufferView → List (Tree × Tree) → Decode (List (Tree × Tree) × BufferView)
  | 0, _, _ => fail .outOfFuel
  | fuel + 1, view, entries => do
    let (k, view) ← one view
    if k.isScalar .nil then pure (entries, view)
    else do
      let (v, view) ← one view
      if k.isNaN then fail .indexNaN
      else unpackPairs fuel view (rawset entries k v)

def unpackTable (fuel : Nat) (view : BufferView) (cookie : Nat) : Decode (Tree × BufferView) :=
  frame do
    emit .unpackTable
    let ((declared, arraySize), view) ← tableLength view cookie
    createTable declared arraySize view
    let (entries, view) ← unpackElements one view [] 1 arraySize.toNat
    let (entries, view) ← unpackPairs one fuel view entries
    pure (.table entries, view)

def pushValue (fuel : Nat) (view : BufferView) (type : UInt8) (cookie : Nat) :
    Decode (Tree × BufferView) :=
  if type = TYPE_NIL then pure (.scalar .nil, view)
  else if type = TYPE_BOOLEAN then pure (.scalar (.boolean (cookie ≠ 0)), view)
  else if type = TYPE_NUMBER then
    if cookie = TYPE_NUMBER_REAL then do
      let (bits, view) ← getReal view
      pure (.scalar (.number bits), view)
    else do
      let (x, view) ← getInteger view cookie
      pure (.scalar (.integer (Int64.ofInt x)), view)
  else if type = TYPE_USERDATA then do
    let (p, view) ← getPointer view
    pure (.scalar (.lightuserdata p), view)
  else if type = TYPE_SHORT_STRING then getString view cookie
  else if type = TYPE_LONG_STRING then
    if cookie = 2 then do
      let (n, view) ← readOr view 2 375
      getString view n
    else if cookie ≠ 4 then invalidStream view 380
    else do
      let (n, view) ← readOr view 4 384
      getString view n
  else if type = TYPE_TABLE then unpackTable one fuel view cookie
  else invalidStream view 394

end Table

def unpackOne : Nat → BufferView → Decode (Tree × BufferView)
  | 0, _ => fail .outOfFuel
  | fuel + 1, view => do
    emit .typeByte
    let (b, view) ← readOr view 1 403
    let type := UInt8.ofNat b
    pushValue (unpackOne fuel) fuel view (type &&& 7) (type >>> 3).toNat

/-- The loop of `lua_serialize_do_unpack`; its `luaL_checkstack` succeeds. -/
def unpackValues : Nat → BufferView → Decode (List Tree)
  | 0, _ => fail .outOfFuel
  | fuel + 1, view => do
    emit .typeByte
    match view.read 1 with
    | none => pure []
    | some (bs, view) => do
      let type := UInt8.ofNat (ofBytes bs)
      let (v, view) ← pushValue (unpackOne fuel) fuel view (type &&& 7) (type >>> 3).toNat
      let vs ← unpackValues fuel view
      pure (v :: vs)

theorem unpackValues_nil {fuel : Nat} {view : BufferView} (h : view.rest = []) :
    unpackValues (fuel + 1) view = emit .typeByte >>= fun _ => pure [] := by
  have hread := view.read_none (n := 1) (by rw [h]; exact Nat.one_pos)
  rw [unpackValues, hread]

/-- While there are bytes, a value is read as `unpack_one` reads it. -/
theorem unpackValues_cons {fuel : Nat} {view : BufferView} (h : view.rest ≠ []) :
    unpackValues (fuel + 1) view =
      unpackOne (fuel + 1) view >>= fun r =>
        unpackValues fuel r.2 >>= fun vs => pure (r.1 :: vs) := by
  obtain ⟨view', hread, -⟩ := view.read_some Nat.one_pos (List.length_pos_of_ne_nil h)
  rw [unpackValues, unpackOne, readOr]
  simp only [hread, bind_assoc, pure_bind]

def unpack (data : List UInt8) : Decode (List Tree) :=
  if data.length = 0 then pure [] else unpackValues (data.length + 1) (.make data)

/-- The `unpack_one` that Lua calls: the value, and how far the buffer seeks. -/
def luaUnpackOne (data : List UInt8) : Decode (Option (Tree × Nat)) := do
  let view := BufferView.make data
  emit .typeByte
  match view.read 1 with
  | none => pure none
  | some (bs, view) => do
    let type := UInt8.ofNat (ofBytes bs)
    let (v, view) ← pushValue (unpackOne data.length) data.length view (type &&& 7) (type >>> 3).toNat
    pure (some (v, data.length - view.size))

theorem luaUnpackOne_nil : luaUnpackOne [] = emit .typeByte >>= fun _ => pure none := rfl

/-- It reads as the other `unpack_one`. -/
theorem luaUnpackOne_cons {data : List UInt8} (h : data ≠ []) :
    luaUnpackOne data = unpackOne (data.length + 1) (.make data) >>= fun r =>
      pure (some (r.1, data.length - r.2.size)) := by
  obtain ⟨view', hread, -⟩ := (BufferView.make data).read_some Nat.one_pos
    (by rw [BufferView.rest_make]; exact List.length_pos_of_ne_nil h)
  rw [luaUnpackOne, unpackOne, readOr]
  simp only [hread, bind_assoc, pure_bind]

end HappyServer.Serialize
