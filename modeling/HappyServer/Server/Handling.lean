import HappyServer.Server.Message
import HappyServer.Worker.Mailbox

/-!
# Handling a message (`core/worker.cpp`, `core/service.hpp`, `services/lua_service.cpp`)

* `handleOne`: which services `handle_message` is called for, and the answer for a dead receiver.
  It is the `handleOne` of the mailbox with the messages as they are (`handleOne_mailbox`).
* `handleMessage`: `dispatch` calls the handler, and then the message may go on to another service.
  A handler may redirect the message any number of times, and then returns or raises an error.

    a request to a dead service is answered ↔ its receiver is on a worker, …   (answered_iff)
    one outcome of a request ↔ no error is raised after a redirection, …       (oneOutcome_iff)
-/

namespace HappyServer.Server

open Worker (Service findService)

/-! ## `worker::handle_one` -/

structure HandledOne where
  ser : Option Service
  dispatched : List Service
  reply : Option Sent

def deadText (sender receiver : UInt32) (bytes : List UInt8) : List UInt8 :=
  ascii "[" ++ hexUpper sender.toNat ++ ascii "] attempt send to dead service [" ++
    hexUpper receiver.toNat ++ ascii "]: " ++ hexString bytes ++ ascii "."

/-- `ser`, after it was found again if it is not the receiver. -/
def receiverOf (services : List Service) (ser : Option Service) (receiver : UInt32) :
    Option Service :=
  match ser with
  | none => findService services receiver
  | some s => if s.id ≠ receiver then findService services receiver else some s

def handleOne (fresh : Nat → UInt8) (router : Router) (services : List Service)
    (ser : Option Service) (msg : Message) : Option HandledOne :=
  if msg.broadcast then
    some ⟨ser, services.filter fun s => s.ok && s.id != msg.sender_, none⟩
  else
    match receiverOf services ser msg.receiver_ with
    | some s => some ⟨some s, [s], none⟩
    | none =>
      if msg.sender_ ≠ 0 then do
        let msg := { msg with sessionid_ := -msg.sessionid_ }
        let content ← format (deadText msg.sender_ msg.receiver_ msg.bytes)
        some ⟨none, [], router.response fresh msg.sender_ (ascii "worker::handle_one ") content
          msg.sessionid_ PTYPE_ERROR⟩
      else some ⟨none, [], none⟩

def Message.toMailbox (m : Message) : Worker.Message Message :=
  if m.broadcast then .broadcast m.sender_ m else .direct m.sender_ m.receiver_ m

variable {fresh : Nat → UInt8} {router : Router} {services : List Service} {ser : Option Service}
  {m : Message}

theorem handleOne_mailbox {h : HandledOne} (hone : handleOne fresh router services ser m = some h) :
    (h.ser, h.dispatched) = Worker.handleOne services ser m.toMailbox := by
  unfold handleOne at hone
  unfold Message.toMailbox
  by_cases hb : m.broadcast = true
  · rw [if_pos hb] at hone ⊢
    obtain rfl := Option.some.inj hone
    rfl
  · rw [if_neg hb] at hone ⊢
    have hdirect : Worker.handleOne services ser (.direct m.sender_ m.receiver_ m) =
        (receiverOf services ser m.receiver_, (receiverOf services ser m.receiver_).toList) := by
      cases ser <;> rfl
    rw [hdirect]
    split at hone
    next s hs =>
      obtain rfl := Option.some.inj hone
      rw [hs]
      rfl
    next hnone =>
      rw [hnone]
      split at hone
      · obtain ⟨content, -, hone⟩ := Option.bind_eq_some_iff.mp hone
        obtain rfl := Option.some.inj hone
        rfl
      · obtain rfl := Option.some.inj hone
        rfl

/-- A cached service has the receiver's id only if it is live. -/
theorem handleOne_dead (hser : ∀ s, ser = some s → s ∈ services)
    (hdead : ∀ s ∈ services, s.id ≠ m.receiver_) (hb : m.broadcast = false) (hsender : m.sender_ ≠ 0) :
    handleOne fresh router services ser m =
      (format (deadText m.sender_ m.receiver_ m.bytes)).map fun content =>
        ⟨none, [], router.response fresh m.sender_ (ascii "worker::handle_one ") content
          (-m.sessionid_) PTYPE_ERROR⟩ := by
  have hfind : findService services m.receiver_ = none := by
    unfold findService
    rw [List.find?_eq_none]
    intro s hs
    simpa using hdead s hs
  have hfound : receiverOf services ser m.receiver_ = none := by
    cases ser with
    | none => exact hfind
    | some s => exact (if_pos (hdead s (hser s rfl))).trans hfind
  unfold handleOne
  rw [if_neg (by rw [hb]; decide), hfound]
  dsimp only
  rw [if_pos hsender]
  show (format (deadText m.sender_ m.receiver_ m.bytes)).bind _ = _
  cases format (deadText m.sender_ m.receiver_ m.bytes) <;> rfl

/-! ## A request to a service that is not there -/

/-- What is sent back after `router::send`, when the message is handled by a worker that has
`services` and the cached service `ser`. -/
def sendAndHandle (fresh : Nat → UInt8) (router : Router) (services : List Service)
    (ser : Option Service) (sender receiver : UInt32) (data : Option Buffer) (header : List UInt8)
    (sessionid : Int32) (type : UInt8) : Option (Option Sent) :=
  match router.send sender receiver data header sessionid type with
  | .logged _ => some none
  | .worker _ m => (handleOne fresh router services ser m).map HandledOne.reply

/-- One message of the type for errors goes to the sender, with the session the sender waits for. -/
def Answered (sender : UInt32) (sessionid : Int32) (reply : Option (Option Sent)) : Prop :=
  ∃ m : Message, reply = some (some (.worker (workerId sender) m)) ∧ m.type_ = PTYPE_ERROR ∧
    m.receiver_ = sender ∧ m.sessionid_ = sessionid

theorem request_broadcast {sender receiver : UInt32} {data : Option Buffer} {header : List UInt8}
    {sessionid : Int32} {type : UInt8} :
    (request sender receiver data header sessionid type).broadcast = false ↔
      ∀ b, data = some b → b.hasFlag FLAG_BROADCAST = false := by
  have hdata : (request sender receiver data header sessionid type).data_ = data := setHeader_data _ _
  unfold Message.broadcast
  rw [hdata]
  cases data with
  | none => simp
  | some b => simp

theorem answered_response (fresh : Nat → UInt8) {sender : UInt32} {sessionid : Int32}
    (header content : List UInt8) (hsender : sender ≠ 0)
    (hlive : router.workeridValid (workerId sender) = true) (hsession : sessionid ≠ 0) :
    Answered sender sessionid
      (some (router.response fresh sender header content sessionid PTYPE_ERROR)) := by
  obtain ⟨m, hresponse, htype, hreceiver, hsession', -⟩ := response_eq router fresh header content
    hsender hsession (show PTYPE_ERROR ≠ PTYPE_UNKNOWN by decide) hlive
  exact ⟨m, congrArg some hresponse, htype, hreceiver, hsession'⟩

theorem not_answered_none {sender : UInt32} {sessionid : Int32} :
    ¬Answered sender sessionid (some none) := by
  rintro ⟨m, h, -⟩
  cases h

/-- A worker that handles a message for a service it does not have answers it, unless the text is
too long for `format`. -/
theorem answered_handleOne {sender : UInt32} {sessionid : Int32}
    (hser : ∀ s, ser = some s → s ∈ services) (hdead : ∀ s ∈ services, s.id ≠ m.receiver_)
    (hfrom : m.sender_ = sender) (hnegated : m.sessionid_ = -sessionid) (hsender : sender ≠ 0)
    (hlive : router.workeridValid (workerId sender) = true) (hsession : sessionid ≠ 0) :
    Answered sender sessionid ((handleOne fresh router services ser m).map HandledOne.reply) ↔
      m.broadcast = false ∧ (deadText sender m.receiver_ m.bytes).length ≤ MAX_FMT_LEN + 1 := by
  cases hb : m.broadcast with
  | true =>
    have hhandled : handleOne fresh router services ser m = some _ := if_pos hb
    rw [hhandled]
    exact iff_of_false not_answered_none fun h => Bool.noConfusion h.1
  | false =>
    rw [handleOne_dead hser hdead hb (hfrom ▸ hsender), hfrom, hnegated, Int32.neg_neg]
    unfold format
    by_cases hfits : (deadText sender m.receiver_ m.bytes).length ≤ MAX_FMT_LEN + 1
    · rw [if_pos hfits]
      exact iff_of_true (answered_response fresh _ _ hsender hlive hsession) ⟨rfl, hfits⟩
    · rw [if_neg hfits]
      refine iff_of_false ?_ fun h => hfits h.2
      rintro ⟨m', h, -⟩
      cases h

/-- A request is answered exactly when its receiver is on a worker, its data was not broadcast
before, and the text of the answer fits in the buffer of `format`. -/
theorem answered_iff (fresh : Nat → UInt8) (router : Router) (services : List Service)
    (ser : Option Service) (sender receiver : UInt32) (data : Option Buffer) (header : List UInt8)
    (sessionid : Int32) (type : UInt8) (hser : ∀ s, ser = some s → s ∈ services)
    (hdead : ∀ s ∈ services, s.id ≠ receiver) (hsender : sender ≠ 0)
    (hlive : router.workeridValid (workerId sender) = true) (hsession : sessionid ≠ 0)
    (htype : type ≠ PTYPE_UNKNOWN) :
    Answered sender sessionid
        (sendAndHandle fresh router services ser sender receiver data header sessionid type) ↔
      router.workeridValid (workerId receiver) = true ∧
        (∀ b, data = some b → b.hasFlag FLAG_BROADCAST = false) ∧
        (deadText sender receiver (request sender receiver data header sessionid type).bytes).length ≤
          MAX_FMT_LEN + 1 := by
  have hreceiver : (request sender receiver data header sessionid type).receiver_ = receiver :=
    setHeader_receiver _ _
  have hfrom : (request sender receiver data header sessionid type).sender_ = sender :=
    setHeader_sender _ _
  have hnegated : (request sender receiver data header sessionid type).sessionid_ = -sessionid := rfl
  have htype' : (request sender receiver data header sessionid type).type_ = type := rfl
  have hmark := @request_broadcast sender receiver data header sessionid type
  unfold sendAndHandle Router.send
  rw [← hmark]
  generalize request sender receiver data header sessionid type = m at *
  by_cases hvalid : router.workeridValid (workerId receiver) = true
  · rw [sendMessage_eq (htype' ▸ htype) (hreceiver ▸ hvalid), and_iff_right hvalid, ← hreceiver]
    exact answered_handleOne hser (hreceiver ▸ hdead) hfrom hnegated hsender hlive hsession
  · refine iff_of_false ?_ fun h => hvalid h.1
    have hmessage : (router.sendMessage m).message = none := by
      rw [sendMessage_message, if_neg (by rw [hreceiver]; exact fun h => hvalid h.2)]
    cases hsent : router.sendMessage m with
    | worker workerid m =>
      rw [hsent] at hmessage
      cases hmessage
    | logged text => exact not_answered_none

/-- Service 1 of the only worker asks service 2 of it, which is not there. -/
theorem answered_dead : Answered 0x01000001 7
    (sendAndHandle (fun _ => 0) oneWorker [] none 0x01000001 0x01000002 none [] 7 PTYPE_TEXT) :=
  (answered_iff (fun _ => 0) oneWorker [] none 0x01000001 0x01000002 none [] 7 PTYPE_TEXT nofun nofun
    (by decide) (by decide) (by decide) (by decide)).mpr ⟨by decide, nofun, by decide +kernel⟩

/-- Service 1 asks a service of worker 5, which does not exist. -/
theorem not_answered : ¬∀ (fresh : Nat → UInt8) (router : Router) (services : List Service)
    (ser : Option Service) (sender receiver : UInt32) (data : Option Buffer) (header : List UInt8)
    (sessionid : Int32) (type : UInt8), (∀ s, ser = some s → s ∈ services) →
    (∀ s ∈ services, s.id ≠ receiver) → sender ≠ 0 → router.workeridValid (workerId sender) = true →
    sessionid ≠ 0 → sessionid ≠ Int32.minValue → type ≠ PTYPE_UNKNOWN →
    Answered sender sessionid
      (sendAndHandle fresh router services ser sender receiver data header sessionid type) := by
  intro h
  obtain ⟨m, hreply, -⟩ := h (fun _ => 0) oneWorker [] none 0x01000001 0x05000001 none [] 7 PTYPE_TEXT
    nofun nofun (by decide) (by decide) (by decide) (by decide) (by decide)
  cases hreply

/-! ## `dispatch` and `handle_message` -/

structure Redirect where
  header : List UInt8
  receiver : UInt32
  type : UInt8

/-- `message.redirect` -/
def Message.redirect (m : Message) (r : Redirect) : Message :=
  let m := m.setHeader r.header
  { m with receiver_ := r.receiver, type_ := r.type }

/-- What a handler does with a message, and what it raises at last. -/
structure Behaviour where
  redirects : List Redirect
  error : Option (List UInt8)

/-- A service of Lua: whether it is ok, and whether its callback is set. -/
structure Callee where
  id : UInt32
  ok : Bool
  callback : Bool

/-- What `dispatch` does when the callback is over: the message then, and what is sent back. -/
def callbackDone (fresh : Nat → UInt8) (router : Router) (error : Option (List UInt8)) (msg : Message) :
    Message × Option Sent :=
  match error with
  | none => (msg, none)
  | some what =>
    if msg.sessionid_ ≥ 0 ∨ msg.receiver_ = 0 then (msg, none)
    else
      let msg := { msg with sessionid_ := -msg.sessionid_ }
      (msg, router.response fresh msg.sender_ (ascii "lua_service::dispatch ") what
        msg.sessionid_ PTYPE_ERROR)

def dispatch (fresh : Nat → UInt8) (router : Router) (s : Callee) (handler : Behaviour)
    (msg : Message) : Message × Option Sent :=
  if !s.ok then (msg, none)
  else if !s.callback then (msg, none)
  else callbackDone fresh router handler.error (handler.redirects.foldl Message.redirect msg)

structure HandledMessage where
  reply : Option Sent
  forwarded : Option Sent

def handleMessage (fresh : Nat → UInt8) (router : Router) (s : Callee) (handler : Behaviour)
    (msg : Message) : HandledMessage :=
  let (m, reply) := dispatch fresh router s handler msg
  if m.receiver_ ≠ s.id ∧ m.receiver_ ≠ 0 then
    if m.broadcast then ⟨reply, none⟩ else ⟨reply, some (router.sendMessage m)⟩
  else ⟨reply, none⟩

/-! ## One outcome -/

/-- An answer and a forwarded message do not go out both, and what is forwarded has the session
and the sender of the message that came in. -/
def OneOutcome (msg : Message) (h : HandledMessage) : Prop :=
  ¬((Sent.delivered h.reply).isSome ∧ (Sent.delivered h.forwarded).isSome) ∧
    ∀ m, Sent.delivered h.forwarded = some m →
      m.sessionid_ = msg.sessionid_ ∧ m.sender_ = msg.sender_

/-- Another service gets the message after `s`. -/
def Leaves (router : Router) (s : Callee) (m : Message) : Prop :=
  m.receiver_ ≠ s.id ∧ m.receiver_ ≠ 0 ∧ m.type_ ≠ PTYPE_UNKNOWN ∧
    router.workeridValid (workerId m.receiver_) = true

instance (router : Router) (s : Callee) (m : Message) : Decidable (Leaves router s m) :=
  inferInstanceAs (Decidable (_ ∧ _))

variable {s : Callee} {handler : Behaviour} {msg : Message}

theorem redirects_kept (redirects : List Redirect) (m : Message) :
    (redirects.foldl Message.redirect m).sender_ = m.sender_ ∧
      (redirects.foldl Message.redirect m).sessionid_ = m.sessionid_ ∧
      (redirects.foldl Message.redirect m).data_ = m.data_ := by
  induction redirects generalizing m with
  | nil => exact ⟨rfl, rfl, rfl⟩
  | cons r redirects ih =>
    obtain ⟨h1, h2, h3⟩ := ih (m.redirect r)
    refine ⟨h1.trans ?_, h2.trans ?_, h3.trans ?_⟩
    · exact setHeader_sender m r.header
    · unfold Message.redirect Message.setHeader
      dsimp only
      split <;> rfl
    · exact setHeader_data m r.header

/-- The message after `dispatch` goes on from the receiver that it has then. -/
theorem handleMessage_delivered {m : Message} {reply : Option Sent}
    (h : dispatch fresh router s handler msg = (m, reply)) (hb : m.broadcast = false) :
    (handleMessage fresh router s handler msg).reply = reply ∧
      Sent.delivered (handleMessage fresh router s handler msg).forwarded =
        if Leaves router s m then some m else none := by
  unfold handleMessage
  rw [h]
  dsimp only
  by_cases hreceiver : m.receiver_ ≠ s.id ∧ m.receiver_ ≠ 0
  · rw [if_pos hreceiver, if_neg (by rw [hb]; decide)]
    refine ⟨rfl, (delivered_sendMessage m).trans (if_congr ?_ rfl rfl)⟩
    exact ⟨fun h => ⟨hreceiver.1, hreceiver.2, h⟩, fun h => h.2.2⟩
  · rw [if_neg hreceiver, if_neg fun h : Leaves router s m => hreceiver ⟨h.1, h.2.1⟩]
    exact ⟨rfl, rfl⟩

/-- Without an error the message stays the one that the redirections made. -/
theorem dispatch_returns (fresh : Nat → UInt8) (router : Router) (msg : Message)
    (h : ¬(s.ok = true ∧ s.callback = true ∧ handler.error.isSome = true)) :
    dispatch fresh router s handler msg = (msg, none) ∨
      dispatch fresh router s handler msg = (handler.redirects.foldl Message.redirect msg, none) := by
  unfold dispatch
  cases hok : s.ok with
  | false => exact .inl rfl
  | true =>
    cases hcallback : s.callback with
    | false => exact .inl rfl
    | true =>
      cases herror : handler.error with
      | none => exact .inr (by simp [callbackDone])
      | some what => exact absurd ⟨hok, hcallback, by rw [herror]; rfl⟩ h

theorem redirects_broadcast (redirects : List Redirect) (m : Message) :
    (redirects.foldl Message.redirect m).broadcast = m.broadcast := by
  unfold Message.broadcast
  rw [(redirects_kept redirects m).2.2]

/-- A `dispatch` that answers nothing and keeps session and sender has one outcome. -/
theorem oneOutcome_of_quiet {m : Message} (h : dispatch fresh router s handler msg = (m, none))
    (hb : m.broadcast = false) (hsession : m.sessionid_ = msg.sessionid_)
    (hsender : m.sender_ = msg.sender_) :
    OneOutcome msg (handleMessage fresh router s handler msg) := by
  obtain ⟨hreply, hforwarded⟩ := handleMessage_delivered h hb
  unfold OneOutcome
  rw [hreply, hforwarded]
  refine ⟨fun hboth => Bool.noConfusion hboth.1, fun m' hm' => ?_⟩
  rw [Option.ite_none_right_eq_some] at hm'
  obtain rfl := Option.some.inj hm'.2
  exact ⟨hsession, hsender⟩

theorem oneOutcome_of_returns (hb : msg.broadcast = false)
    (h : ¬(s.ok = true ∧ s.callback = true ∧ handler.error.isSome = true)) :
    OneOutcome msg (handleMessage fresh router s handler msg) := by
  obtain ⟨hsender, hsession, -⟩ := redirects_kept handler.redirects msg
  obtain h | h := dispatch_returns fresh router msg h
  · exact oneOutcome_of_quiet h hb rfl rfl
  · exact oneOutcome_of_quiet h ((redirects_broadcast _ _).trans hb) hsession hsender

/-- An error of a request turns the session around and is answered, if there still is a
receiver. -/
theorem dispatch_raises (fresh : Nat → UInt8) (router : Router) {what : List UInt8}
    (hok : s.ok = true) (hcallback : s.callback = true) (herror : handler.error = some what)
    (hsession : msg.sessionid_ < 0) :
    let m := handler.redirects.foldl Message.redirect msg
    dispatch fresh router s handler msg =
      if m.receiver_ = 0 then (m, none)
      else ({ m with sessionid_ := -msg.sessionid_ },
        router.response fresh msg.sender_ (ascii "lua_service::dispatch ") what (-msg.sessionid_)
          PTYPE_ERROR) := by
  obtain ⟨hsender, hkept, -⟩ := redirects_kept handler.redirects msg
  intro m
  have hnot : ¬m.sessionid_ ≥ 0 := by
    rw [hkept]
    exact Int32.not_le.mpr hsession
  unfold dispatch
  rw [hok, hcallback, herror]
  show (if m.sessionid_ ≥ 0 ∨ m.receiver_ = 0 then _ else _) = _
  by_cases hreceiver : m.receiver_ = 0
  · rw [if_pos (.inr hreceiver), if_pos hreceiver]
  · rw [if_neg (not_or.mpr ⟨hnot, hreceiver⟩), if_neg hreceiver, ← hsender, ← hkept]

theorem neg_ne_zero {x : Int32} (h : x < 0) : -x ≠ 0 := by
  intro hzero
  have hx : x = 0 := by rw [← Int32.neg_neg (a := x), hzero]; rfl
  rw [hx] at h
  exact absurd h (by decide)

/-- `-x` overflows for the least `x` only. -/
theorem neg_ne_self {x : Int32} (h : x < 0) : -x ≠ x ↔ x ≠ Int32.minValue := by
  constructor
  · rintro hne rfl
    exact hne rfl
  · intro hmin hself
    exact hmin (by grind)

/-- A request has one outcome unless its handler raises an error after it redirected the message to
a service that gets it: that service gets the answer's session, besides the answer. -/
theorem oneOutcome_iff (fresh : Nat → UInt8) (router : Router) (s : Callee) (handler : Behaviour)
    (msg : Message) (hb : msg.broadcast = false) (hsession : msg.sessionid_ < 0) :
    OneOutcome msg (handleMessage fresh router s handler msg) ↔
      ¬(s.ok = true ∧ s.callback = true ∧ handler.error.isSome = true ∧
        Leaves router s (handler.redirects.foldl Message.redirect msg) ∧
        (msg.sessionid_ ≠ Int32.minValue ∨
          msg.sender_ ≠ 0 ∧ router.workeridValid (workerId msg.sender_) = true)) := by
  obtain ⟨hsender, hkept, -⟩ := redirects_kept handler.redirects msg
  have hb' := (redirects_broadcast handler.redirects msg).trans hb
  by_cases hraise : s.ok = true ∧ s.callback = true ∧ handler.error.isSome = true
  · obtain ⟨hok, hcallback, herror⟩ := hraise
    obtain ⟨what, hwhat⟩ := Option.isSome_iff_exists.mp herror
    have hdispatch := dispatch_raises fresh router hok hcallback hwhat hsession
    dsimp only at hdispatch
    by_cases hreceiver : (handler.redirects.foldl Message.redirect msg).receiver_ = 0
    · rw [if_pos hreceiver] at hdispatch
      exact iff_of_true (oneOutcome_of_quiet hdispatch hb' hkept hsender)
        fun h => h.2.2.2.1.2.1 hreceiver
    · rw [if_neg hreceiver] at hdispatch
      obtain ⟨hreply, hforwarded⟩ := handleMessage_delivered hdispatch hb'
      unfold OneOutcome
      rw [hreply, delivered_response]
      by_cases hgoes : Leaves router s (handler.redirects.foldl Message.redirect msg)
      · rw [hforwarded.trans (if_pos hgoes)]
        constructor
        · rintro ⟨hone, hkeeps⟩ ⟨-, -, -, -, hmin | ⟨hto, hvalid⟩⟩
          · have hself : -msg.sessionid_ = msg.sessionid_ := (hkeeps _ rfl).1
            exact (neg_ne_self hsession).mpr hmin hself
          · exact hone ⟨⟨hto, neg_ne_zero hsession, by decide, hvalid⟩, rfl⟩
        · intro hnot
          obtain ⟨hmin, hanswer⟩ := not_or.mp fun h => hnot ⟨hok, hcallback, herror, hgoes, h⟩
          refine ⟨fun hboth => hanswer ⟨hboth.1.1, hboth.1.2.2.2⟩, ?_⟩
          rintro m ⟨⟩
          refine ⟨?_, hsender⟩
          show -msg.sessionid_ = msg.sessionid_
          rw [not_not.mp hmin]
          rfl
      · rw [hforwarded.trans (if_neg hgoes)]
        exact iff_of_true ⟨fun hboth => Bool.noConfusion hboth.2, nofun⟩ fun h => hgoes h.2.2.2.1
  · exact iff_of_true (oneOutcome_of_returns hb hraise) fun h => hraise ⟨h.1, h.2.1, h.2.2.1⟩

theorem forwarded_direct {m : Message}
    (h : Sent.delivered (handleMessage fresh router s handler msg).forwarded = some m) :
    m.broadcast = false := by
  unfold handleMessage at h
  obtain ⟨after, reply⟩ := dispatch fresh router s handler msg
  dsimp only at h
  split at h
  · split at h
    · cases h
    next hb =>
      rw [delivered_sendMessage, Option.ite_none_right_eq_some] at h
      obtain rfl := Option.some.inj h.2
      exact Bool.not_eq_true _ ▸ hb
  · cases h

/-- A service whose handler raises no error gets one message and sends the other one on. -/
def SendsOn (fresh : Nat → UInt8) (router : Router) (before after : Message) : Prop :=
  ∃ s handler, Behaviour.error handler = none ∧
    Sent.delivered (handleMessage fresh router s handler before).forwarded = some after

/-- From service to service, a message keeps its session and its sender. -/
theorem chain_kept {last : Message} (h : Relation.ReflTransGen (SendsOn fresh router) msg last)
    (hb : msg.broadcast = false) :
    last.broadcast = false ∧ last.sessionid_ = msg.sessionid_ ∧ last.sender_ = msg.sender_ := by
  induction h with
  | refl => exact ⟨hb, rfl, rfl⟩
  | @tail before after _ hstep ih =>
    obtain ⟨hb, hsession, hsender⟩ := ih
    obtain ⟨s, handler, herror, hforwarded⟩ := hstep
    have hone : OneOutcome before (handleMessage fresh router s handler before) :=
      oneOutcome_of_returns hb fun h => by simp [herror] at h
    obtain ⟨h1, h2⟩ := hone.2 after hforwarded
    exact ⟨forwarded_direct hforwarded, h1.trans hsession, h2.trans hsender⟩

def luaService : Callee := ⟨0x01000002, true, true⟩

def asked : Message :=
  { type_ := PTYPE_TEXT, sender_ := 0x01000001, receiver_ := 0x01000002, sessionid_ := -7 }

def toThird : Redirect := ⟨[], 0x01000003, PTYPE_TEXT⟩

/-- A handler sends the request on and returns. -/
theorem oneOutcome_returns :
    OneOutcome asked (handleMessage (fun _ => 0) oneWorker luaService ⟨[toThird], none⟩ asked) :=
  (oneOutcome_iff (fun _ => 0) oneWorker luaService ⟨[toThird], none⟩ asked (by decide)
    (by decide)).mpr fun h => Bool.noConfusion h.2.2.1

/-- A handler sends the request on and raises an error. -/
theorem not_oneOutcome : ¬∀ (fresh : Nat → UInt8) (router : Router) (s : Callee) (handler : Behaviour)
    (msg : Message), msg.broadcast = false → msg.sessionid_ < 0 →
    OneOutcome msg (handleMessage fresh router s handler msg) := by
  intro h
  have hone := h (fun _ => 0) oneWorker luaService ⟨[toThird], some (ascii "oops")⟩ asked (by decide)
    (by decide)
  have hkept := hone.2 { asked with receiver_ := 0x01000003, sessionid_ := 7 } rfl
  exact absurd hkept.1 (by decide)

end HappyServer.Server
