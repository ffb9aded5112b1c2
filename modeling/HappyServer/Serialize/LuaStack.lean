import HappyServer.Lib.Slots
import HappyServer.Serialize.Pack

/-!
# Packing on Lua's stack (`magic/lua_serialize.cpp`)

`pack_one` and the functions of a table, call of Lua by call of Lua, with the indices of the source.
The buffer is an object on the heap that can be deleted and touched afterwards.

* A `__pairs` metamethod makes a new iterator, with a state and a first control variable of its own
  (`controls`).  The iterator knows the pairs that are left, and gives the next when it is called as a
  `for` loop calls it: with its state, and with the key that it gave last.
* `Stop.stuck` is what Lua must not be asked to do, or a loop that does not end.
-/

namespace HappyServer.Serialize.LuaStack

open Word

variable {τ : Type}

/-! ## The state -/

/-- A value, or a function that plays a part in an iteration. -/
inductive Slot (τ : Type) where
  | value (v : LuaValue τ)
  | pairsMethod (t : τ)
  | iterator (id : Nat)
deriving DecidableEq

def Slot.nil : Slot τ := .value (.scalar .nil)

def Slot.toValue : Slot τ → LuaValue τ
  | .value v => v
  | _ => .other .function

structure Iterator (τ : Type) where
  state : Slot τ
  control : Slot τ
  left : List (LuaValue τ × LuaValue τ)

/-- A `buffer` that may have been deleted. -/
structure HeapBuffer where
  heap : Bool := false
  bytes : List UInt8 := []
  deletes : Nat := 0
  /-- it was used after it had been deleted -/
  misused : Bool := false

structure LuaState (τ : Type) where
  stack : List (Slot τ) := []
  iterators : Nat → Iterator τ
  nextId : Nat := 0
  buf : HeapBuffer := {}

inductive Stop where
  | error (e : PackError)
  | stuck

abbrev Lua (τ : Type) := EStateM Stop (LuaState τ)

/-! ## The buffer -/

def HeapBuffer.touch (b : HeapBuffer) : HeapBuffer := { b with misused := b.misused || b.deletes ≠ 0 }

def onBuffer (f : HeapBuffer → HeapBuffer) : Lua τ Unit :=
  fun st => .ok () { st with buf := f st.buf.touch }

def writeBack (bs : List UInt8) : Lua τ Unit := onBuffer fun b => { b with bytes := b.bytes ++ bs }

/-- `set_flag(HEAP_BUFFER)` and `clear_flag(HEAP_BUFFER)` -/
def setHeap (heap : Bool) : Lua τ Unit := onBuffer fun b => { b with heap := heap }

def delete : Lua τ Unit := onBuffer fun b => { b with deletes := b.deletes + 1 }

def hasHeap : Lua τ Bool := fun st => .ok st.buf.heap { st with buf := st.buf.touch }

/-- `if (b->has_flag(HEAP_BUFFER)) delete b; luaL_error(...);` -/
def raise (e : Bool → PackError) : Lua τ Unit := do
  let heap ← hasHeap
  if heap then delete
  throw (.error (e heap))

/-! ## Lua -/

def stuck {α : Type} : Lua τ α := throw .stuck

def gettop : Lua τ Nat := fun st => .ok st.stack.length st

def push (x : Slot τ) : Lua τ Unit := fun st => .ok () { st with stack := st.stack ++ [x] }

def pop (n : Nat) : Lua τ Unit := fun st =>
  if n ≤ st.stack.length then .ok () { st with stack := Slots.pop st.stack n } else .error .stuck st

def slotAt (index : Int) : Lua τ (Slot τ) := fun st =>
  match Slots.get st.stack index with
  | some x => .ok x st
  | none => .error .stuck st

def pushvalue (index : Int) : Lua τ Unit := do
  let x ← slotAt index
  push x

def copy (fromidx toidx : Int) : Lua τ Unit := do
  let x ← slotAt fromidx
  let _ ← slotAt toidx
  modify fun st => { st with stack := Slots.put st.stack toidx x }

/-- The table at `index`. -/
def tableAt (index : Int) : Lua τ τ := do
  match ← slotAt index with
  | .value (.table t) => pure t
  | _ => stuck

section Store

variable [DecidableEq τ] (S : Store τ) (controls : τ → Slot τ × Slot τ)

def rawgeti (index : Int) (i : Nat) : Lua τ Unit := do
  let t ← tableAt index
  push (.value (Serialize.rawgeti (S t).pairs i))

/-- The pair that `lua_next` finds after a key. -/
def following (pairs : List (LuaValue τ × LuaValue τ)) (key : Slot τ) :
    Option (LuaValue τ × LuaValue τ) :=
  if key = .nil then pairs.head?
  else (pairs.dropWhile fun kv => Slot.value kv.1 ≠ key).tail.head?

def next (index : Int) : Lua τ Bool := do
  let t ← tableAt index
  let key ← slotAt (-1)
  pop 1
  match following (S t).pairs key with
  | none => pure false
  | some kv =>
    push (.value kv.1)
    push (.value kv.2)
    pure true

/-- `luaL_getmetafield(L, index, "__pairs") != LUA_TNIL` -/
def getPairsMethod (index : Int) : Lua τ Bool := do
  let t ← tableAt index
  match (S t).metapairs with
  | none => pure false
  | some _ =>
    push (.pairsMethod t)
    pure true

/-- What the metamethod of `t` returns. -/
def startPairs (t : τ) : Lua τ Unit := fun st =>
  let it : Iterator τ := ⟨(controls t).1, (controls t).2, (S t).metapairs.getD []⟩
  .ok () { st with
    stack := st.stack ++ [.iterator st.nextId, it.state, it.control]
    iterators := Function.update st.iterators st.nextId it
    nextId := st.nextId + 1 }

/-- `lua_call(L, 1, 3)` of a `__pairs` metamethod with its table. -/
def callPairs : Lua τ Unit := do
  let f ← slotAt (-2)
  let arg ← slotAt (-1)
  pop 2
  match f with
  | .pairsMethod t => if arg = .value (.table t) then startPairs S controls t else stuck
  | _ => stuck

/-- What the iterator returns. -/
def iterate (id : Nat) : Lua τ Unit := fun st =>
  let it := st.iterators id
  match it.left with
  | [] => .ok () { st with stack := st.stack ++ [.nil, .nil] }
  | kv :: left => .ok () { st with
      stack := st.stack ++ [.value kv.1, .value kv.2]
      iterators := Function.update st.iterators id { it with control := .value kv.1, left := left } }

/-- `lua_call(L, 2, 2)` of an iterator. -/
def callIterator : Lua τ Unit := do
  let f ← slotAt (-3)
  let state ← slotAt (-2)
  let control ← slotAt (-1)
  pop 3
  match f with
  | .iterator id =>
    let st ← get
    if state = (st.iterators id).state ∧ control = (st.iterators id).control then iterate id else stuck
  | _ => stuck

/-! ## Tables -/

variable (one : Int → Lua τ Unit)

def wbElements (index : Int) (i : Nat) : Nat → Lua τ Unit
  | 0 => pure ()
  | n + 1 => do
    rawgeti S index i
    one (-1)
    pop 1
    wbElements index (i + 1) n

def wbTableArray (index : Int) : Lua τ Int := do
  let t ← tableAt index
  let arraySize := i32 (S t).rawlen
  writeBack (wbArrayHeader arraySize)
  wbElements S one index 1 arraySize.toNat
  pure arraySize

/-- The loop over `lua_next`. -/
def wbPairs (index : Int) (arraySize : Int) : Nat → Lua τ Unit
  | 0 => stuck
  | fuel + 1 => do
    if ← next S index then
      let key ← slotAt (-2)
      if inArray arraySize key.toValue then
        pop 1
        wbPairs index arraySize fuel
      else
        one (-2)
        one (-1)
        pop 1
        wbPairs index arraySize fuel

def wbTableHash (index : Int) (arraySize : Int) : Lua τ Unit := do
  push .nil
  let t ← tableAt index
  wbPairs S one index arraySize ((S t).pairs.length + 1)
  writeBack wbNil

/-- The loop over the iterator. -/
def wbMetapairs : Nat → Lua τ Unit
  | 0 => stuck
  | fuel + 1 => do
    pushvalue (-2)
    pushvalue (-2)
    copy (-5) (-3)
    callIterator
    let key ← slotAt (-2)
    if key = .nil then pop 4
    else
      one (-2)
      one (-1)
      pop 1
      wbMetapairs fuel

def wbTableMetapairs (index : Int) : Lua τ Unit := do
  writeBack [combineType TYPE_TABLE 0]
  let t ← tableAt index
  pushvalue index
  callPairs S controls
  wbMetapairs one (((S t).metapairs.getD []).length + 1)
  writeBack wbNil

/-- `if (index < 0) index = lua_gettop(L) + index + 1;` -/
def absolute (index : Int) : Lua τ Int := do
  if index < 0 then
    let top ← gettop
    pure (top + index + 1)
  else pure index

def wbTable (index : Int) : Lua τ Unit := do
  let index ← absolute index
  if ← getPairsMethod S index then wbTableMetapairs S controls one index
  else
    let arraySize ← wbTableArray S one index
    wbTableHash S one index arraySize

/-! ## Values -/

/-- `pack_one` at a depth that leaves `left` of them. -/
def packOne : Nat → Int → Lua τ Unit
  | 0, _ => raise .tooDeep
  | left + 1, index => do
    let x ← slotAt index
    match x.toValue with
    | .scalar s => writeBack (wbScalar s)
    | .table _ =>
      let index ← absolute index
      wbTable S controls (packOne left) index
    | .other kind => raise (.unsupported kind)

/-- `pack_one(L, b, i, 0)` for so many `i`. -/
def packArguments (i : Nat) : Nat → Lua τ Unit
  | 0 => pure ()
  | n + 1 => do
    packOne S controls (MAX_DEPTH + 1) i
    packArguments (i + 1) n

/-- What is written, if there are arguments: to a buffer that the caller of `pack` gets, or to one on
the stack of `packsafe`. -/
def packAll (heap : Bool) : Lua τ (Option (List UInt8)) := do
  let n ← gettop
  if n = 0 then pure none
  else
    modify fun st => { st with buf := {} }
    if heap then setHeap true
    packArguments S controls 1 n
    if heap then setHeap false
    let st ← get
    pure (some st.buf.bytes)

def pack : Lua τ (Option (List UInt8)) := packAll S controls true

def packsafe : Lua τ (Option (List UInt8)) := packAll S controls false

end Store

end HappyServer.Serialize.LuaStack
