import HappyServer.Lib.LittleEndian
import HappyServer.Lib.Word
import HappyServer.Serialize.Value

/-!
# Packing (`magic/lua_serialize.cpp`)

What a function of the source writes to its buffer is what it returns here.

* `packWithin left` is `pack_one` at a depth that leaves `left` of them: tables may be
  cyclic, and the check of `MAX_DEPTH` is what ends the recursion (`packOne_eq`).
* `heap` is the flag `HEAP_BUFFER`; an error says whether it deleted the buffer.
* Lua's stack and its memory suffice.
-/

namespace HappyServer.Serialize

open LittleEndian Word

def TYPE_NIL : UInt8 := 0
def TYPE_BOOLEAN : UInt8 := 1
def TYPE_NUMBER : UInt8 := 2
def TYPE_NUMBER_ZERO : Nat := 0
def TYPE_NUMBER_BYTE : Nat := 1
def TYPE_NUMBER_WORD : Nat := 2
def TYPE_NUMBER_DWORD : Nat := 4
def TYPE_NUMBER_QWORD : Nat := 6
def TYPE_NUMBER_REAL : Nat := 8
def TYPE_USERDATA : UInt8 := 3
def TYPE_SHORT_STRING : UInt8 := 4
def TYPE_LONG_STRING : UInt8 := 5
def TYPE_TABLE : UInt8 := 6
def MAX_COOKIE : Int := 32
def MAX_DEPTH : Nat := 32

/-- `(uint8_t)COMBINE_TYPE(t,v)`, of a `v` that may be negative. -/
def combineType (t : UInt8) (v : Int) : UInt8 := t ||| UInt8.ofInt v <<< 3

inductive PackError where
  | tooDeep (deleted : Bool)
  | unsupported (kind : Kind) (deleted : Bool)
deriving DecidableEq

def PackError.text : PackError → String
  | .tooDeep _ => "serialize can't pack too depth table"
  | .unsupported kind _ => "Unsupport type " ++ kind.typename ++ " to serialize"

/-! ## Scalars -/

def wbNil : List UInt8 := [TYPE_NIL]

def wbBoolean (boolean : Bool) : List UInt8 := [combineType TYPE_BOOLEAN (if boolean then 1 else 0)]

def wbInteger (v : Int) : List UInt8 :=
  if v = 0 then [combineType TYPE_NUMBER TYPE_NUMBER_ZERO]
  else if v ≠ i32 v then combineType TYPE_NUMBER TYPE_NUMBER_QWORD :: bytesOf 8 (u64 v)
  else if v < 0 then combineType TYPE_NUMBER TYPE_NUMBER_DWORD :: bytesOf 4 (u32 v)
  else if v < 0x100 then combineType TYPE_NUMBER TYPE_NUMBER_BYTE :: bytesOf 1 v.toNat
  else if v < 0x10000 then combineType TYPE_NUMBER TYPE_NUMBER_WORD :: bytesOf 2 v.toNat
  else combineType TYPE_NUMBER TYPE_NUMBER_DWORD :: bytesOf 4 (u32 v)

def wbReal (bits : UInt64) : List UInt8 :=
  combineType TYPE_NUMBER TYPE_NUMBER_REAL :: bytesOf 8 bits.toNat

def wbPointer (p : UInt64) : List UInt8 := TYPE_USERDATA :: bytesOf 8 p.toNat

def wbString (str : List UInt8) (len : Int) : List UInt8 :=
  if len < MAX_COOKIE then combineType TYPE_SHORT_STRING len :: str.take len.toNat
  else if len < 0x10000 then
    combineType TYPE_LONG_STRING 2 :: (bytesOf 2 len.toNat ++ str.take len.toNat)
  else combineType TYPE_LONG_STRING 4 :: (bytesOf 4 (u32 len) ++ str.take len.toNat)

def wbScalar : Scalar → List UInt8
  | .nil => wbNil
  | .boolean b => wbBoolean b
  | .integer x => wbInteger x.toInt
  | .number bits => wbReal bits
  | .lightuserdata p => wbPointer p
  | .string bytes => wbString bytes (i32 bytes.length)

/-- The length of a string fits an `int`. -/
def Scalar.Fits : Scalar → Prop
  | .string bytes => bytes.length < 2 ^ 31
  | _ => True

/-! ## Tables -/

section Table

variable {τ : Type} (one : LuaValue τ → Except PackError (List UInt8))

def wbArrayHeader (arraySize : Int) : List UInt8 :=
  if MAX_COOKIE - 1 ≤ arraySize then
    combineType TYPE_TABLE (MAX_COOKIE - 1) :: wbInteger arraySize
  else [combineType TYPE_TABLE arraySize]

/-- The elements `i, i + 1, …`, as many as the second number says. -/
def wbElements (t : LuaTable τ) (i : Nat) : Nat → Except PackError (List UInt8)
  | 0 => .ok []
  | n + 1 => do
    let b ← one (rawgeti t.pairs i)
    let bs ← wbElements t (i + 1) n
    .ok (b ++ bs)

def wbTableArray (t : LuaTable τ) : Except PackError (List UInt8 × Int) := do
  let arraySize := i32 t.rawlen
  let bs ← wbElements one t 1 arraySize.toNat
  .ok (wbArrayHeader arraySize ++ bs, arraySize)

/-- The key is an integer of the array part. -/
def inArray (arraySize : Int) : LuaValue τ → Bool
  | .scalar (.integer x) => 0 < x.toInt ∧ x.toInt ≤ arraySize
  | _ => false

theorem inArray_iff {arraySize : Int} {k : LuaValue τ} :
    inArray arraySize k = true ↔
      ∃ x : Int64, k = .scalar (.integer x) ∧ 0 < x.toInt ∧ x.toInt ≤ arraySize := by
  unfold inArray
  split
  next x =>
    rw [decide_eq_true_iff]
    constructor
    · intro h
      exact ⟨x, rfl, h⟩
    · rintro ⟨y, hy, h⟩
      cases hy
      exact h
  next hne =>
    constructor
    · intro h
      cases h
    · rintro ⟨x, rfl, _⟩
      exact absurd rfl (hne x)

/-- An array part has elements only if there are pairs. -/
theorem exists_pair {t : LuaTable τ} (h : 0 < (i32 t.rawlen).toNat) : ∃ kv, kv ∈ t.pairs := by
  have hne : t.rawlen ≠ 0 := by
    intro h0
    rw [h0] at h
    exact absurd h (by decide)
  obtain ⟨kv, hkv, -⟩ := mem_of_rawgeti (t.border.1.resolve_left hne)
  exact ⟨kv, hkv⟩

def wbTableHash (arraySize : Int) : List (LuaValue τ × LuaValue τ) → Except PackError (List UInt8)
  | [] => .ok wbNil
  | (k, v) :: pairs =>
    if inArray arraySize k then wbTableHash arraySize pairs
    else do
      let bk ← one k
      let bv ← one v
      let bs ← wbTableHash arraySize pairs
      .ok (bk ++ bv ++ bs)

/-- The iterator ends at a nil key. -/
def wbMetapairs : List (LuaValue τ × LuaValue τ) → Except PackError (List UInt8)
  | [] => .ok wbNil
  | (.scalar .nil, _) :: _ => .ok wbNil
  | (k, v) :: pairs => do
    let bk ← one k
    let bv ← one v
    let bs ← wbMetapairs pairs
    .ok (bk ++ bv ++ bs)

def wbTableMetapairs (pairs : List (LuaValue τ × LuaValue τ)) : Except PackError (List UInt8) := do
  let bs ← wbMetapairs one pairs
  .ok (combineType TYPE_TABLE 0 :: bs)

def wbTable (t : LuaTable τ) : Except PackError (List UInt8) :=
  match t.metapairs with
  | some pairs => wbTableMetapairs one pairs
  | none => do
    let (ba, arraySize) ← wbTableArray one t
    let bh ← wbTableHash one arraySize t.pairs
    .ok (ba ++ bh)

end Table

/-! ## Values -/

variable {τ : Type}

def packWithin (S : Store τ) (heap : Bool) : Nat → LuaValue τ → Except PackError (List UInt8)
  | 0, _ => .error (.tooDeep heap)
  | left + 1, v =>
    match v with
    | .scalar s => .ok (wbScalar s)
    | .table t => wbTable (packWithin S heap left) (S t)
    | .other kind => .error (.unsupported kind heap)

def packOne (S : Store τ) (heap : Bool) (v : LuaValue τ) (depth : Nat) :
    Except PackError (List UInt8) :=
  packWithin S heap (MAX_DEPTH + 1 - depth) v

/-- As the source has it. -/
theorem packOne_eq (S : Store τ) (heap : Bool) (v : LuaValue τ) (depth : Nat) :
    packOne S heap v depth =
      if depth > MAX_DEPTH then .error (.tooDeep heap)
      else
        match v with
        | .scalar s => .ok (wbScalar s)
        | .table t => wbTable (fun v => packOne S heap v (depth + 1)) (S t)
        | .other kind => .error (.unsupported kind heap) := by
  unfold packOne
  by_cases h : depth > MAX_DEPTH
  · rw [if_pos h, Nat.sub_eq_zero_of_le h]
    rfl
  · rw [if_neg h, show MAX_DEPTH + 1 - depth = MAX_DEPTH + 1 - (depth + 1) + 1 by omega]
    rfl

def packValues (S : Store τ) (heap : Bool) : List (LuaValue τ) → Except PackError (List UInt8)
  | [] => .ok []
  | v :: vs => do
    let b ← packOne S heap v 0
    let bs ← packValues S heap vs
    .ok (b ++ bs)

def pack (S : Store τ) (vs : List (LuaValue τ)) : Except PackError (Option (List UInt8)) :=
  if vs.length = 0 then .ok none else (packValues S true vs).map some

def packsafe (S : Store τ) (vs : List (LuaValue τ)) : Except PackError (Option (List UInt8)) :=
  if vs.length = 0 then .ok none else (packValues S false vs).map some

end HappyServer.Serialize
