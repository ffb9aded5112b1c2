import Mathlib.Logic.Function.Basic
import HappyServer.Lib.Word

/-!
# The timer wheels (`common/timer.hpp`)

`detail::timer_wheel` and `base_timer<TChild>`, function by function.

* A list of keys (`std::list<uint64_t>`) is a `List Nat`; `push_front` and
  `pop_front` work at its head.
* The derived class is a state `σ` and the function `onTimer` that its `on_timer`
  computes: the state after the call, the `insert_timer` calls made during it (by
  `repeat`, from the callback) and the result.  `none`: the call does not return.
* `expired` loops until its list is empty, with one unit of `fuel` a round; `none`
  when the fuel is spent.  Next to its result it lists what it did (`Event`).
-/

namespace HappyServer.Timer

open Word

/-- `timer_id_t` -/
abbrev TimerId := UInt32

def WHEEL_SIZE : Nat := 255
def TIMERID_SHIT : Nat := 32
/-- Milliseconds in a tick. -/
def PRECISION : Int := 10

/-! ## `detail::timer_wheel` -/

structure TimerWheel (Size : Nat) where
  head : Nat := 0
  array : Nat → List Nat := fun _ => []

namespace TimerWheel

variable {Size : Nat} (w : TimerWheel Size)

def front : List Nat := w.array w.head
def popFront : TimerWheel Size := { w with head := (w.head + 1) % Size }
def round : Bool := w.head == 0
def size (_ : TimerWheel Size) : Nat := Size
def nextSlot : Nat := w.head

/-- `wheel[slot] = keys` -/
def set (slot : Nat) (keys : List Nat) : TimerWheel Size :=
  { w with array := Function.update w.array slot keys }

def pushBack (slot key : Nat) : TimerWheel Size := w.set slot (w.array slot ++ [key])
def pushFront (slot key : Nat) : TimerWheel Size := w.set slot (key :: w.array slot)

end TimerWheel

/-! ## Keys -/

/-- The id in the upper half, one byte a wheel in the lower. -/
def makeKey (id : TimerId) (slots : Nat) : Nat := id.toNat <<< TIMERID_SHIT ||| slots

def getSlot (key which_queue : Nat) : Nat := (key >>> (which_queue * 8)) &&& 0xFF

def keyId (key : Nat) : TimerId := UInt32.ofNat (key >>> TIMERID_SHIT)

/-! ## `insert_timer` -/

/-- The number of ticks `insert_timer` waits: the signed division is C++'s, `diff`
is an `int32_t` and its quotient becomes a `size_t`. -/
def slotCount (duration : Int) : Nat :=
  let diff := duration
  let offset := diff.tmod PRECISION
  let diff := if offset > 0 then i32 (diff + PRECISION) else diff
  let slot_count := u64 (diff.tdiv PRECISION)
  if slot_count > 0 then slot_count else 1

/-- The loop over the wheels, at wheel `i`. -/
def insertLoop {Size : Nat} (id : TimerId) :
    (i slots slot_count : Nat) → List (TimerWheel Size) → List (TimerWheel Size)
  | _, _, _, [] => []
  | i, slots, slot_count, wheel :: rest =>
    let slot_count := add64 slot_count wheel.nextSlot
    let slot := sub64 slot_count 1 % wheel.size
    let slot_count := sub64 slot_count slot
    let slots := slots ||| slot <<< (i * 8)
    let key := makeKey id slots
    if slot_count < wheel.size then wheel.pushBack slot key :: rest
    else wheel :: insertLoop id (i + 1) slots (slot_count / wheel.size) rest

def insertTimer {Size : Nat} (duration : Int) (id : TimerId) (wheels : List (TimerWheel Size)) :
    List (TimerWheel Size) :=
  insertLoop id 0 0 (slotCount duration) wheels

/-! ## `base_timer` -/

structure BaseTimer (σ : Type) where
  stop : Bool := false
  tick : Int := 0
  previousTick : Int := 0
  wheels : List (TimerWheel WHEEL_SIZE) := [{}, {}, {}, {}]
  /-- the derived class -/
  child : σ

/-- What one call of the child's `on_timer` does. -/
structure Fired (σ : Type) where
  child : σ
  armed : List (Int × TimerId)
  duration : Int

/-- What `expired` does, in order: a call of `on_timer`, a call of `insert_timer`. -/
inductive Event where
  | fire (id : TimerId)
  | arm (duration : Int) (id : TimerId)
deriving DecidableEq, Repr

/-- The timers one round of `expired` arms: those armed by the callback, then the
fired one when `on_timer` returned a duration. -/
def Fired.arms {σ : Type} (r : Fired σ) (id : TimerId) : List (Int × TimerId) :=
  r.armed ++ if r.duration ≠ 0 then [(r.duration, id)] else []

def Fired.events {σ : Type} (r : Fired σ) (id : TimerId) : List Event :=
  .fire id :: (r.arms id).map fun a => .arm a.1 a.2

namespace BaseTimer

variable {σ : Type}

def insertTimer (s : BaseTimer σ) (duration : Int) (id : TimerId) : BaseTimer σ :=
  { s with wheels := Timer.insertTimer duration id s.wheels }

def stopAllTimer (s : BaseTimer σ) : BaseTimer σ := { s with stop := true }
def startAllTimer (s : BaseTimer σ) : BaseTimer σ := { s with stop := false }

/-- `insert_timer` for each pair, in order. -/
def insertAll (s : BaseTimer σ) (armed : List (Int × TimerId)) : BaseTimer σ :=
  armed.foldl (fun s a => s.insertTimer a.1 a.2) s

/-- The first key of the list `slot` of wheel 0 and the timer without it. -/
def popKey (s : BaseTimer σ) (slot : Nat) : Option (Nat × BaseTimer σ) :=
  match s.wheels with
  | [] => none
  | wheel :: rest =>
    match wheel.array slot with
    | [] => none
    | key :: keys => some (key, { s with wheels := wheel.set slot keys :: rest })

/-- `expires` is the list `slot` of wheel 0, read afresh every round. -/
def expired (onTimer : σ → TimerId → Option (Fired σ)) (slot : Nat) :
    (fuel : Nat) → BaseTimer σ → Option (BaseTimer σ × List Event)
  | 0, _ => none
  | fuel + 1, s =>
    match s.popKey slot with
    | none => some (s, [])
    | some (key, s) => do
      let id := keyId key
      let r ← onTimer s.child id
      let s := { s with child := r.child }.insertAll (r.arms id)
      let (s, events) ← expired onTimer slot fuel s
      some (s, r.events id ++ events)

/-- The inner `while` of `update`: every key of `keys` goes to the slot its byte `i`
names, at the front. -/
def moveDown {Size : Nat} (i : Nat) (keys : List Nat) (wheel : TimerWheel Size) :
    TimerWheel Size :=
  keys.foldl (fun wheel key => wheel.pushFront (getSlot key i) key) wheel

/-- The `for` of `update`, at wheel `i`; `rest` are the wheels after it. -/
def cascadeLoop {Size : Nat} : (i : Nat) → TimerWheel Size → (rest : List (TimerWheel Size)) →
    List (TimerWheel Size)
  | _, wheel, [] => [wheel]
  | i, wheel, next_wheel :: rest =>
    if !wheel.round then wheel :: next_wheel :: rest
    else moveDown i next_wheel.front wheel ::
      cascadeLoop (i + 1) (next_wheel.set next_wheel.head []).popFront rest

def cascade {Size : Nat} : List (TimerWheel Size) → List (TimerWheel Size)
  | [] => []
  | wheel :: rest => cascadeLoop 0 wheel rest

/-- The body of `update`'s loop, past the test of `stop_`. -/
def processTick (onTimer : σ → TimerId → Option (Fired σ)) (fuel : Nat) (s : BaseTimer σ) :
    Option (BaseTimer σ × List Event) :=
  match s.wheels with
  | [] => none
  | wheel :: rest => do
    let slot := wheel.head
    let s := { s with wheels := wheel.popFront :: rest }
    let (s, events) ← if wheel.front ≠ [] then expired onTimer slot fuel s else some (s, [])
    some ({ s with wheels := cascade s.wheels }, events)

/-- `n` rounds of `while (tick_ >= PRECISION)`; the events of every tick processed. -/
def updateLoop (onTimer : σ → TimerId → Option (Fired σ)) (fuel : Nat) :
    (n : Nat) → BaseTimer σ → Option (BaseTimer σ × List (List Event))
  | 0, s => some (s, [])
  | n + 1, s => do
    let s := { s with tick := s.tick - PRECISION }
    if s.stop then updateLoop onTimer fuel n s
    else
      let (s, events) ← processTick onTimer fuel s
      let (s, ticks) ← updateLoop onTimer fuel n s
      some (s, events :: ticks)

/-- The clock as `update` reads it into `tick_` and `previous_tick_`. -/
def readClock (s : BaseTimer σ) (now_tick : Int) : BaseTimer σ :=
  let previous := if s.previousTick = 0 then now_tick else s.previousTick
  { s with tick := s.tick + (now_tick - previous), previousTick := now_tick }

/-- `update` with `now_()` reading `now_tick`.  The result is `old_tick`. -/
def update (onTimer : σ → TimerId → Option (Fired σ)) (fuel : Nat) (now_tick : Int)
    (s : BaseTimer σ) : Option (BaseTimer σ × Int × List (List Event)) := do
  let s := s.readClock now_tick
  let old_tick := s.tick
  let (s, ticks) ← updateLoop onTimer fuel (s.tick / PRECISION).toNat s
  some (s, old_tick, ticks)

end BaseTimer

end HappyServer.Timer
