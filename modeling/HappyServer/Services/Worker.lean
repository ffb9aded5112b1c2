import HappyServer.Server.Message
import Mathlib.Data.List.AList
import Mathlib.Logic.Function.Basic

/-!
# Workers and their services (`core/worker.cpp`, `core/router.cpp`, `services/lua_service.cpp`)

The tasks that a worker runs to add and to remove a service, and what `router::new_service` does
before it posts the first.  A creation that comes to its end has two halves: `create`, up to
`init`, which may register a unique name, and `Worker.add`.

What the configuration and the Lua file of a service come to is data of the task (`Creation`).
-/

namespace HappyServer.Services

open Server

/-- `enum class state` -/
inductive State where
  | unknown
  | init
  | ready
  | stopping
  | exited
deriving DecidableEq

/-! ## Services and their names -/

structure Service where
  id_ : UInt32
  name_ : List UInt8 := []
  unique_ : Bool
  ok_ : Bool := false
  start_ : Bool := false
deriving DecidableEq

/-- `unique_services_` -/
abbrev UniqueServices := AList fun _ : List UInt8 => UInt32

def getUniqueService (unique : UniqueServices) (name : List UInt8) : UInt32 :=
  if name = [] then 0 else (unique.lookup name).getD 0

def setUniqueService (unique : UniqueServices) (name : List UInt8) (v : UInt32) :
    Option UniqueServices :=
  if name = [] then none
  else if name ∈ unique then none
  else some (unique.insert name v)

/-- The arguments of `add_service`, with what there is to know of the type and the configuration. -/
structure Creation where
  /-- `regservices_` has the type -/
  registered : Bool
  /-- the configuration is parsed, and the Lua file is found, loaded and called -/
  loads : Bool
  name : List UInt8
  unique : Bool
  creatorid : UInt32
  sessionid : Int32

/-- `lua_service::init` -/
def Service.init (s : Service) (c : Creation) (unique : UniqueServices) :
    Option Service × UniqueServices :=
  if !c.loads then (none, unique)
  else
    let s := { s with name_ := c.name }
    if s.unique_ then
      match setUniqueService unique s.name_ s.id_ with
      | none => (none, unique)
      | some unique => (some { s with ok_ := true }, unique)
    else (some { s with ok_ := true }, unique)

/-- `lua_service::start` -/
def Service.start (s : Service) : Service :=
  if s.start_ || !s.ok_ then s else { s with start_ := true }

/-! ## A worker -/

structure Worker where
  workerid_ : UInt8
  state_ : State := .init
  shared_ : Bool := true
  count_ : UInt32 := 0
  uuid_ : UInt32 := 0
  services_ : AList fun _ : UInt32 => Service := ∅

def MAX_UUID : Nat := 0xFFFF

namespace Worker

/-- The id that `uuid()` makes of a value of the counter. -/
def idOf (w : Worker) (res : UInt32) : UInt32 :=
  (res % 0xFFFF + 1) ||| (w.workerid_.toUInt32 <<< WORKER_ID_SHIFT)

def uuid (w : Worker) : UInt32 × Worker := (w.idOf w.uuid_, { w with uuid_ := w.uuid_ + 1 })

/-- The inner loop of `add_service`, which may try so many ids more. -/
def search : Nat → UInt32 → Worker → UInt32 × Worker
  | 0, serviceid, w => (serviceid, w)
  | n + 1, _, w =>
    let (serviceid, w) := w.uuid
    if serviceid ∈ w.services_ then search n serviceid w else (serviceid, w)

/-- The creation up to `init`; without a service it has failed. -/
def create (w : Worker) (unique : UniqueServices) (c : Creation) :
    Option Service × Worker × UniqueServices :=
  if w.state_ ≠ .ready then (none, w, unique)
  else
    let (serviceid, w) := w.search MAX_UUID 0
    if !c.registered then (none, w, unique)
    else
      let s : Service := { id_ := serviceid, unique_ := c.unique }
      let (s, unique) := s.init c unique
      (s, w, unique)

/-- `services_.emplace`, which fails if the id is there, and what follows it. -/
def add (w : Worker) (serverState : State) (s : Service) : Option Worker :=
  let s := { s with ok_ := true }
  if s.id_ ∈ w.services_ then none
  else
    let started := if serverState ≠ .init then s.start else s
    some { w with services_ := w.services_.insert s.id_ started, count_ := w.count_ + 1 }

def isEmpty (w : Worker) : Bool := w.services_.entries.isEmpty

end Worker

/-- The answer to the one who asked for a service. -/
def answer (fresh : Nat → UInt8) (router : Router) (c : Creation) (content : List UInt8) : Option Sent :=
  if c.sessionid ≠ 0 then router.response fresh c.creatorid [] content c.sessionid PTYPE_TEXT else none

/-- The second half of the creation of `s`, if there is one. -/
def Worker.finish (fresh : Nat → UInt8) (router : Router) (serverState : State) (w : Worker)
    (c : Creation) (s : Option Service) : Worker × Option Sent :=
  match s.bind fun s => (w.add serverState s).map fun w => (s.id_, w) with
  | some (serviceid, w) => (w, answer fresh router c (ascii (toString serviceid.toNat)))
  | none => ({ w with shared_ := w.isEmpty }, answer fresh router c (ascii "0"))

/-! ## Removal -/

/-- `format(R"({"name":"%s","serviceid":%X,"errmsg":"service destroy"})", …)` -/
def destroyText (s : Service) : List UInt8 :=
  ascii "\x7b\"name\":\"" ++ s.name_.takeWhile (· ≠ 0) ++ ascii "\",\"serviceid\":" ++
    hexUpper s.id_.toNat ++ ascii ",\"errmsg\":\"service destroy\"\x7d"

def notFoundText (serviceid : UInt32) : List UInt8 :=
  ascii "service [" ++ hexUpper serviceid.toNat ++ ascii "] not found"

structure Removal where
  worker : Worker
  reply : Option Sent
  /-- what the workers are sent -/
  exits : List Message

/-- What the task of `remove_service` does for a service that is there. -/
def Worker.destroy (fresh : Nat → UInt8) (router : Router) (w : Worker) (s : Service)
    (serviceid sender : UInt32) (sessionid : Int32) : Option Removal := do
  let content ← formatString (destroyText s)
  let w := { w with count_ := w.count_ - 1, services_ := w.services_.erase serviceid }
  let w := if w.isEmpty then { w with shared_ := true } else w
  let buf ← Buffer.make fresh 64 BUFFER_HEAD_RESERVED
  let buf ← buf.writeBack fresh content
  some ⟨w, router.response fresh sender (ascii "service destroy") content sessionid PTYPE_TEXT,
    router.broadcast serviceid (some buf) (ascii "exit") PTYPE_SYSTEM⟩

/-- A worker that is stopping ends with its last service. -/
def Removal.settle (removal : Removal) : Removal :=
  if removal.worker.isEmpty && removal.worker.state_ = .stopping then
    { removal with worker := { removal.worker with state_ := .exited } }
  else removal

/-- The task of `remove_service`; `none` if a text does not fit. -/
def Worker.removeService (fresh : Nat → UInt8) (router : Router) (w : Worker)
    (serviceid sender : UInt32) (sessionid : Int32) : Option Removal :=
  let removal :=
    match w.services_.lookup serviceid with
    | some s => w.destroy fresh router s serviceid sender sessionid
    | none =>
      (formatString (notFoundText serviceid)).map fun content =>
        ⟨w, router.response fresh sender (ascii "worker::remove_service ") content sessionid
          PTYPE_ERROR, []⟩
  removal.map Removal.settle

/-! ## The router -/

/-- What the workers and the router have. -/
structure Core (router : Router) where
  workers_ : Fin router.workers → Worker
  next_workerid_ : UInt32 := 0
  unique_services_ : UniqueServices := ∅

namespace Core

variable {router : Router}

/-- The workers are there and wait for tasks. -/
def start (router : Router) : Core router where
  workers_ i := { workerid_ := UInt8.ofNat (i.val + 1), state_ := .ready }

def setWorker (core : Core router) (i : Fin router.workers) (w : Worker) : Core router :=
  { core with workers_ := Function.update core.workers_ i w }

def nextWorker (core : Core router) : Fin router.workers × Core router :=
  let n := core.next_workerid_.toNat
  let core := { core with next_workerid_ := core.next_workerid_ + 1 }
  let freeWorker := (List.finRange router.workers).filter fun i => (core.workers_ i).shared_
  if h : freeWorker ≠ [] then
    (freeWorker.get ⟨n % freeWorker.length, Nat.mod_lt _ (List.length_pos_of_ne_nil h)⟩, core)
  else (⟨n % router.workers, Nat.mod_lt _ router.workers_pos⟩, core)

theorem pred_lt_workers {workerid : UInt32} (h : router.workeridValid workerid = true) :
    workerid.toNat - 1 < router.workers := by
  unfold Router.workeridValid at h
  rw [Bool.and_eq_true, decide_eq_true_eq, decide_eq_true_eq] at h
  have hpos : 0 < workerid.toNat := UInt32.lt_iff_toNat_lt.mp h.1
  omega

/-- The worker that is to create the service. -/
def newService (core : Core router) (workerid : Int32) : Fin router.workers × Core router :=
  if h : router.workeridValid workerid.toUInt32 = true then
    let i := ⟨workerid.toUInt32.toNat - 1, pred_lt_workers h⟩
    (i, core.setWorker i { core.workers_ i with shared_ := false })
  else core.nextWorker

/-- The task of `add_service`, with nothing in between. -/
def addService (fresh : Nat → UInt8) (serverState : State) (core : Core router)
    (i : Fin router.workers) (c : Creation) : Core router × Option Sent :=
  let (s, w, unique) := (core.workers_ i).create core.unique_services_ c
  let (w, reply) := w.finish fresh router serverState c s
  ({ core with unique_services_ := unique }.setWorker i w, reply)

end Core

end HappyServer.Services
