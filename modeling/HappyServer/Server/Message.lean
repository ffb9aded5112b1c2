import HappyServer.Buffer.Queue

/-!
# Messages and how they are routed (`common/message.hpp`, `core/router.cpp`)

`sendMessage` hands a message to a worker or logs why not.  `response` makes an answer,
`broadcast` one message for every worker, all with the same buffer.

A string is the list of its bytes.  `format` is that of the platforms other than Windows.
-/

namespace HappyServer.Server

open Word

def WORKER_ID_SHIFT : UInt32 := 24

def BUFFER_HEAD_RESERVED : Nat := 14

def PTYPE_UNKNOWN : UInt8 := 0
def PTYPE_SYSTEM : UInt8 := 1
def PTYPE_TEXT : UInt8 := 2
def PTYPE_ERROR : UInt8 := 5

/-- `buffer_flag::broadcast` -/
def FLAG_BROADCAST : UInt32 := (1 : UInt32) <<< 3

/-! ## Texts -/

def ascii (s : String) : List UInt8 := s.toUTF8.toList

/-- `%X`, and what a stream prints with `std::hex` and `std::uppercase` -/
def hexUpper (n : Nat) : List UInt8 :=
  (Nat.toDigits 16 n).map fun c => c.toUpper.toNat.toUInt8

def hexString (bytes : List UInt8) : List UInt8 := bytes.flatMap fun c => hexUpper c.toNat

def MAX_FMT_LEN : Nat := 8192

/-- `format(…).data()`, where `text` is all that `vsnprintf` had to write; a length beyond
`fmtbuf` is copied from outside of it. -/
def format (text : List UInt8) : Option (List UInt8) :=
  if text.length ≤ MAX_FMT_LEN + 1 then some (text.take (MAX_FMT_LEN - 1)) else none

/-- `format(…)`, in which zeros follow a text that was cut. -/
def formatString (text : List UInt8) : Option (List UInt8) :=
  (format text).map fun s => s ++ List.replicate (text.length - s.length) 0

/-! ## Messages -/

structure Message where
  type_ : UInt8 := 0
  subtype_ : UInt8 := 0
  sender_ : UInt32 := 0
  receiver_ : UInt32 := 0
  sessionid_ : Int32 := 0
  header_ : Option (List UInt8) := none
  data_ : Option Buffer := none

namespace Message

def header (m : Message) : List UInt8 := m.header_.getD []

def setHeader (m : Message) (header : List UInt8) : Message :=
  if header.length ≠ 0 then { m with header_ := some header } else m

def bytes (m : Message) : List UInt8 :=
  match m.data_ with
  | none => []
  | some b => b.readable

def broadcast (m : Message) : Bool :=
  match m.data_ with
  | none => false
  | some b => b.hasFlag FLAG_BROADCAST

def setBroadcast (m : Message) (v : Bool) : Message :=
  match m.data_ with
  | none => m
  | some b =>
    { m with data_ := some (if v then b.setFlag FLAG_BROADCAST else b.clearFlag FLAG_BROADCAST) }

end Message

/-- A buffer with `data` written to it, as `sol_lua_get` and `response` make one. -/
def createBuffer (fresh : Nat → UInt8) (data : List UInt8) : Option Buffer := do
  let b ← Buffer.make fresh data.length BUFFER_HEAD_RESERVED
  b.writeBack fresh data

/-- A new buffer has room for what it was made for. -/
theorem make_room (fresh : Nat → UInt8) {n : Nat} (h : n + BUFFER_HEAD_RESERVED < 2 ^ 63) :
    ∃ b, Buffer.make fresh n BUFFER_HEAD_RESERVED = some b ∧ Buffer.Sound b [] ∧ b.Room n := by
  have hblank : Buffer.Sound (Buffer.blank BUFFER_HEAD_RESERVED) [] := Buffer.sound_blank (by decide)
  have hspace : (Buffer.blank BUFFER_HEAD_RESERVED).writeablesize =
      STACK_CAPACITY - BUFFER_HEAD_RESERVED :=
    Buffer.writeablesize_eq hblank.ordered
  have hstack : STACK_CAPACITY = 216 := rfl
  have hhead : BUFFER_HEAD_RESERVED = 14 := rfl
  unfold Buffer.make
  dsimp only
  split
  next hlarge =>
    have hroom : (Buffer.blank BUFFER_HEAD_RESERVED).Room n := by
      rw [add64_of_lt _ _ (by omega)] at hlarge
      refine .inr (.inl ⟨?_, ?_⟩)
      · show add64 (Buffer.blank BUFFER_HEAD_RESERVED).writeablesize BUFFER_HEAD_RESERVED < _
        rw [hspace, add64_of_lt _ _ (by omega)]
        show _ < add64 n BUFFER_HEAD_RESERVED
        rw [add64_of_lt _ _ (by omega)]
        exact hlarge
      · show BUFFER_HEAD_RESERVED + n ≤ Buffer.nextPow2 (add64 BUFFER_HEAD_RESERVED n)
        rw [add64_of_lt _ _ (by omega)]
        exact Buffer.le_nextPow2 (by omega)
    obtain ⟨b, hb, hsound, hfits, -⟩ := hblank.checkSpace fresh hroom
    refine ⟨b, hb, hsound, .inl ?_⟩
    rw [Buffer.writeablesize_eq hsound.ordered]
    omega
  next hsmall =>
    refine ⟨_, rfl, hblank, .inl ?_⟩
    rw [hspace]
    rw [add64_of_lt _ _ (by omega)] at hsmall
    have hcap : (Buffer.blank BUFFER_HEAD_RESERVED).capacity_ = STACK_CAPACITY := rfl
    omega

theorem createBuffer_sound (fresh : Nat → UInt8) {data : List UInt8}
    (h : data.length + BUFFER_HEAD_RESERVED < 2 ^ 63) :
    ∃ b, createBuffer fresh data = some b ∧ Buffer.Sound b data := by
  obtain ⟨b, hmake, hsound, hroom⟩ := make_room fresh h
  obtain ⟨b', hwrite, hsound', -⟩ := hsound.writeBack fresh hroom
  refine ⟨b', ?_, hsound'⟩
  unfold createBuffer
  rw [hmake]
  exact hwrite

/-! ## Routing -/

/-- `server::init` makes one worker at least, and counts them with a `uint8_t`. -/
structure Router where
  workers : Nat
  workers_pos : 0 < workers
  workers_le : workers ≤ 255

def oneWorker : Router := ⟨1, by decide, by decide⟩

def onlyWorker : Fin oneWorker.workers := ⟨0, by decide⟩

inductive Sent where
  /-- `get_worker(workerid)->send(m)` -/
  | worker (workerid : UInt32) (m : Message)
  | logged (text : List UInt8)

def workerId (serviceid : UInt32) : UInt32 := (serviceid >>> WORKER_ID_SHIFT) &&& 0xFF

/-- The message that `send` makes. -/
def request (sender receiver : UInt32) (data : Option Buffer) (header : List UInt8)
    (sessionid : Int32) (type : UInt8) : Message :=
  let m : Message := { data_ := data }
  let m := { m with sender_ := sender, receiver_ := receiver }
  let m := m.setHeader header
  { m with type_ := type, sessionid_ := -sessionid }

namespace Router

variable (router : Router)

def workeridValid (workerid : UInt32) : Bool := workerid > 0 && workerid.toNat ≤ router.workers

def sendMessage (m : Message) : Sent :=
  if m.type_ = PTYPE_UNKNOWN then .logged (ascii "invalid message type.")
  else if m.receiver_ = 0 then .logged (ascii "message receiver serviceid is 0.")
  else
    let workerid := workerId m.receiver_
    if !router.workeridValid workerid then
      .logged (ascii "invalid message receiver serviceid " ++ hexUpper m.receiver_.toNat)
    else .worker workerid m

def send (sender receiver : UInt32) (data : Option Buffer) (header : List UInt8)
    (sessionid : Int32) (type : UInt8) : Sent :=
  router.sendMessage (request sender receiver data header sessionid type)

/-- Without a receiver or a session there is no answer. -/
def response (fresh : Nat → UInt8) (receiver : UInt32) (header content : List UInt8) (sessionid : Int32)
    (mtype : UInt8) : Option Sent :=
  if receiver = 0 ∨ sessionid = 0 then none
  else
    let m : Message := { receiver_ := receiver }
    let m := m.setHeader header
    some (router.sendMessage { m with
      type_ := mtype
      sessionid_ := sessionid
      data_ := createBuffer fresh content })

/-- The message for one worker; all of them have the one buffer. -/
def broadcastMessage (sender : UInt32) (buf : Option Buffer) (header : List UInt8) (type : UInt8) :
    Message :=
  let m : Message := { data_ := buf }
  let m := (m.setBroadcast true).setHeader header
  { m with sender_ := sender, type_ := type }

/-- What each worker is sent. -/
def broadcast (sender : UInt32) (buf : Option Buffer) (header : List UInt8) (type : UInt8) :
    List Message :=
  List.replicate router.workers (broadcastMessage sender buf header type)

end Router

/-- The message that reaches a worker, if one does. -/
def Sent.message : Sent → Option (UInt32 × Message)
  | .worker workerid m => some (workerid, m)
  | .logged _ => none

/-- The message that was sent to a service, if it was. -/
def Sent.delivered (sent : Option Sent) : Option Message := (sent.bind Sent.message).map Prod.snd

variable {router : Router} {m : Message}

@[simp] theorem setHeader_type (m : Message) (header : List UInt8) :
    (m.setHeader header).type_ = m.type_ := by
  unfold Message.setHeader
  split <;> rfl

@[simp] theorem setHeader_sender (m : Message) (header : List UInt8) :
    (m.setHeader header).sender_ = m.sender_ := by
  unfold Message.setHeader
  split <;> rfl

@[simp] theorem setHeader_receiver (m : Message) (header : List UInt8) :
    (m.setHeader header).receiver_ = m.receiver_ := by
  unfold Message.setHeader
  split <;> rfl

@[simp] theorem setHeader_data (m : Message) (header : List UInt8) :
    (m.setHeader header).data_ = m.data_ := by
  unfold Message.setHeader
  split <;> rfl

/-- A message is handed to a worker if it has a type and its receiver is on a worker. -/
theorem sendMessage_eq (htype : m.type_ ≠ PTYPE_UNKNOWN)
    (hvalid : router.workeridValid (workerId m.receiver_) = true) :
    router.sendMessage m = .worker (workerId m.receiver_) m := by
  have hreceiver : m.receiver_ ≠ 0 := by
    rintro h
    rw [h] at hvalid
    exact absurd hvalid (by simp [Router.workeridValid, workerId])
  unfold Router.sendMessage
  rw [if_neg htype, if_neg hreceiver]
  simp only [hvalid, Bool.not_true, Bool.false_eq_true, if_false]

theorem response_eq (router : Router) (fresh : Nat → UInt8) {receiver : UInt32}
    (header content : List UInt8) {sessionid : Int32} {mtype : UInt8}
    (hreceiver : receiver ≠ 0) (hsession : sessionid ≠ 0) (htype : mtype ≠ PTYPE_UNKNOWN) (hvalid : router.workeridValid (workerId receiver) = true) :
    ∃ m : Message, router.response fresh receiver header content sessionid mtype =
        some (.worker (workerId receiver) m) ∧
      m.type_ = mtype ∧ m.receiver_ = receiver ∧ m.sessionid_ = sessionid ∧
      m.data_ = createBuffer fresh content := by
  unfold Router.response
  rw [if_neg (not_or.mpr ⟨hreceiver, hsession⟩)]
  dsimp only
  refine ⟨{ Message.setHeader { receiver_ := receiver } header with
    type_ := mtype
    sessionid_ := sessionid
    data_ := createBuffer fresh content }, ?_, rfl, ?_, rfl, rfl⟩
  · rw [sendMessage_eq htype (by simpa using hvalid)]
    simp
  · simp

theorem sendMessage_message : (router.sendMessage m).message =
    if m.type_ ≠ PTYPE_UNKNOWN ∧ router.workeridValid (workerId m.receiver_) = true then
      some (workerId m.receiver_, m)
    else none := by
  split
  next h =>
    rw [sendMessage_eq h.1 h.2]
    rfl
  next h =>
    unfold Router.sendMessage
    split
    · rfl
    next htype =>
      split
      · rfl
      · dsimp only
        split
        · rfl
        next hvalid => exact absurd ⟨htype, by simpa using hvalid⟩ h

theorem delivered_sendMessage (m : Message) :
    Sent.delivered (some (router.sendMessage m)) =
      if m.type_ ≠ PTYPE_UNKNOWN ∧ router.workeridValid (workerId m.receiver_) = true then some m
      else none := by
  unfold Sent.delivered
  rw [Option.bind_some, sendMessage_message]
  split <;> rfl

theorem delivered_response {fresh : Nat → UInt8} {receiver : UInt32}
    {header content : List UInt8} {sessionid : Int32} {mtype : UInt8} :
    (Sent.delivered (router.response fresh receiver header content sessionid mtype)).isSome = true ↔
      receiver ≠ 0 ∧ sessionid ≠ 0 ∧ mtype ≠ PTYPE_UNKNOWN ∧
        router.workeridValid (workerId receiver) = true := by
  by_cases h : receiver = 0 ∨ sessionid = 0
  · have hnone : router.response fresh receiver header content sessionid mtype = none := if_pos h
    rw [hnone]
    constructor
    · intro hsome
      cases hsome
    · rintro ⟨h1, h2, -⟩
      exact absurd h (not_or.mpr ⟨h1, h2⟩)
  · have hsent : router.response fresh receiver header content sessionid mtype =
        some (router.sendMessage { Message.setHeader { receiver_ := receiver } header with
          type_ := mtype
          sessionid_ := sessionid
          data_ := createBuffer fresh content }) := if_neg h
    rw [hsent, delivered_sendMessage, setHeader_receiver]
    obtain ⟨h1, h2⟩ := not_or.mp h
    split
    next hvalid => exact ⟨fun _ => ⟨h1, h2, hvalid⟩, fun _ => rfl⟩
    next hvalid =>
      constructor
      · intro hsome
        cases hsome
      · rintro ⟨-, -, hvalid'⟩
        exact absurd hvalid' hvalid

end HappyServer.Server
