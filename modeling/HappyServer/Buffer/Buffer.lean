import HappyServer.Lib.Block
import HappyServer.Lib.Word

/-!
# `common/buffer.hpp`

Bytes are written at the back (and, into the room before the read position, at the front) and
read at the front.  The bytes are in `stack_data_` until `check_space` moves them to the heap.

An operation is `none` when it copies from or to outside the storage.  `new char[n]` gives memory
of any content (`fresh`).  An empty array stands for a null pointer as well.  The assertions
of the source are not there.
-/

namespace HappyServer

open Block Word

def STACK_CAPACITY : Nat := 256 - 4 * 8 - 8

structure Buffer where
  flag_ : UInt32
  headreserved_ : Nat
  capacity_ : Nat
  readpos_ : Nat
  writepos_ : Nat
  heap_data_ : Option (List UInt8)
  stack_data_ : List UInt8
  stack_length : stack_data_.length = STACK_CAPACITY
deriving DecidableEq

inductive SeekOrigin where
  | Begin
  | Current
  | End
  /-- a number that is no origin -/
  | other
deriving DecidableEq

namespace Buffer

/-- `data_()`: the array, all of it. -/
def storage (b : Buffer) : List UInt8 := b.heap_data_.getD b.stack_data_

/-- `memcpy(data_() + pos, …)` -/
def memcpy (b : Buffer) (pos : Nat) (bytes : List UInt8) : Option Buffer :=
  match b.heap_data_ with
  | some heap => (store heap pos bytes).map fun heap => { b with heap_data_ := some heap }
  | none =>
    match h : store b.stack_data_ pos bytes with
    | none => none
    | some stack => some { b with
        stack_data_ := stack
        stack_length := (length_store h).trans b.stack_length }

def size (b : Buffer) : Nat := sub64 b.writepos_ b.readpos_

def writeablesize (b : Buffer) : Nat := sub64 b.capacity_ b.writepos_

def nextPow2 (x : Nat) : Nat :=
  if x &&& sub64 x 1 = 0 then x
  else
    let x := x ||| x >>> 1
    let x := x ||| x >>> 2
    let x := x ||| x >>> 4
    let x := x ||| x >>> 8
    let x := x ||| x >>> 16
    add64 x 1

section Space

variable (fresh : Nat → UInt8)

def grow (b : Buffer) (need : Nat) : Option Buffer := do
  let requiredSize := nextPow2 (add64 b.writepos_ need)
  let bytes ← load b.storage 0 b.writepos_
  let heap ← store ((List.range requiredSize).map fresh) 0 bytes
  some { b with heap_data_ := some heap, capacity_ := requiredSize }

def moveReadable (b : Buffer) : Option Buffer :=
  if b.size ≠ 0 then do
    let bytes ← load b.storage b.readpos_ b.size
    b.memcpy b.headreserved_ bytes
  else some b

def compact (b : Buffer) : Option Buffer := do
  let moved ← b.moveReadable
  some { moved with
    readpos_ := b.headreserved_
    writepos_ := add64 b.headreserved_ b.size }

/-- The test between the two ways to find space. -/
def grows (b : Buffer) (need : Nat) : Prop :=
  add64 b.writeablesize b.readpos_ < add64 need b.headreserved_

instance (b : Buffer) (need : Nat) : Decidable (b.grows need) :=
  inferInstanceAs (Decidable (_ < _))

def checkSpace (b : Buffer) (need : Nat) : Option Buffer :=
  if b.writeablesize ≥ need then some b
  else if b.grows need then b.grow fresh need
  else b.compact

/-- What the constructor initialises the members with. -/
def blank (headreserved : Nat) : Buffer where
  flag_ := 0
  headreserved_ := headreserved
  capacity_ := STACK_CAPACITY
  readpos_ := headreserved
  writepos_ := headreserved
  heap_data_ := none
  stack_data_ := List.replicate STACK_CAPACITY 0
  stack_length := List.length_replicate

/-- The constructor. -/
def make (capacity headreserved : Nat) : Option Buffer :=
  let b := blank headreserved
  if add64 capacity headreserved > b.capacity_ then b.checkSpace fresh capacity else some b

/-- What `init` does first. -/
def reserve (b : Buffer) (headreserved : Nat) : Buffer :=
  { b with
    readpos_ := headreserved
    writepos_ := headreserved
    headreserved_ := headreserved }

def init (b : Buffer) (capacity headreserved : Nat) : Option Buffer := do
  let b ← (b.reserve headreserved).checkSpace fresh capacity
  some { b with flag_ := 0 }

def writeBack (b : Buffer) (data : List UInt8) : Option Buffer :=
  if data.length = 0 then some b
  else do
    let b ← b.checkSpace fresh data.length
    let b ← b.memcpy b.writepos_ data
    some { b with writepos_ := add64 b.writepos_ data.length }

end Space

def writeFront (b : Buffer) (data : List UInt8) : Option (Bool × Buffer) :=
  if data.length = 0 then some (false, b)
  else if data.length > b.readpos_ then some (false, b)
  else do
    let b := { b with readpos_ := b.readpos_ - data.length }
    let b ← b.memcpy b.readpos_ data
    some (true, b)

def read (b : Buffer) (n : Nat) : Option (Option (List UInt8) × Buffer) :=
  if n = 0 then some (none, b)
  else if add64 b.readpos_ n > b.writepos_ then some (none, b)
  else do
    let bytes ← load b.storage b.readpos_ n
    some (some bytes, { b with readpos_ := add64 b.readpos_ n })

def seek (b : Buffer) (offset : Int) : SeekOrigin → Buffer
  | .Begin => { b with readpos_ := u64 offset }
  | .Current =>
    let pos := u64 (b.readpos_ + offset)
    { b with readpos_ := if pos > b.writepos_ then b.writepos_ else pos }
  | .End =>
    let pos := u64 (b.writepos_ + offset)
    { b with readpos_ := if pos ≥ b.writepos_ then b.writepos_ else pos }
  | .other => b

def clear (b : Buffer) : Buffer :=
  { b with readpos_ := b.headreserved_, writepos_ := b.headreserved_, flag_ := 0 }

def setFlag (b : Buffer) (v : UInt32) : Buffer := { b with flag_ := b.flag_ ||| v }

def hasFlag (b : Buffer) (v : UInt32) : Bool := b.flag_ &&& v ≠ 0

def clearFlag (b : Buffer) (v : UInt32) : Buffer := { b with flag_ := b.flag_ &&& ~~~v }

def offsetWritepos (b : Buffer) (offset : Int) : Buffer :=
  let pos := u64 (b.writepos_ + offset)
  { b with writepos_ := if pos ≥ b.capacity_ then b.capacity_ else pos }

/-- What a move leaves behind. -/
def movedFrom (b : Buffer) : Buffer := { b with heap_data_ := none }

/-- The bytes from the read position to the write position. -/
def readable (b : Buffer) : List UInt8 := (b.storage.drop b.readpos_).take b.size

/-! ## Operations as data -/

inductive Op where
  | init (capacity : UInt64) (headreserved : UInt32)
  | writeBack (data : List UInt8)
  | writeFront (data : List UInt8)
  | read (n : UInt64)
  | seek (offset : Int32) (s : SeekOrigin)
  | clear
  | setFlag (v : UInt32)
  | clearFlag (v : UInt32)
  | offsetWritepos (offset : Int32)
  | checkSpace (need : UInt64)
  | movedFrom

inductive Output where
  | done
  | wrote (ok : Bool)
  | bytes (data : Option (List UInt8))
  | position (pos : Nat)
deriving DecidableEq

def exec (fresh : Nat → UInt8) (b : Buffer) : Op → Option (Output × Buffer)
  | .init capacity headreserved =>
    (b.init fresh capacity.toNat headreserved.toNat).map fun b => (.done, b)
  | .writeBack data => (b.writeBack fresh data).map fun b => (.done, b)
  | .writeFront data => (b.writeFront data).map fun (ok, b) => (.wrote ok, b)
  | .read n => (b.read n.toNat).map fun (data, b) => (.bytes data, b)
  | .seek offset s =>
    let b := b.seek offset.toInt s
    some (.position b.readpos_, b)
  | .clear => some (.done, b.clear)
  | .setFlag v => some (.done, b.setFlag v)
  | .clearFlag v => some (.done, b.clearFlag v)
  | .offsetWritepos offset => some (.done, b.offsetWritepos offset.toInt)
  | .checkSpace need => (b.checkSpace fresh need.toNat).map fun b => (.done, b)
  | .movedFrom => some (.done, b.movedFrom)

end Buffer

end HappyServer
