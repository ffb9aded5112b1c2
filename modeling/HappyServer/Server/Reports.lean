import HappyServer.Server.Isolation

/-!
# Error reports (`core/router.cpp`, `core/worker.cpp`, `services/lua_service.cpp`)

`router::response` makes a message without a sender.  The two places that answer a message on the
server's own account, `handle_one` for a dead receiver and `dispatch` for a handler that raised an
error, answer its sender, and there is no answer to the service 0.

    nothing that came from `response` is answered          (no_cascade)

* `Handler`: what a handler does with the message, any calls of its methods among it.
* `network`: the messages in flight.  Any of them is processed next, by any worker with any
  services; others appear at any time.  `report` and `cascades` are not in the source: whether a
  message was made by `response`, and the answers to such messages.
-/

namespace HappyServer.Server

open Worker (Service findService)

/-! ## Handlers -/

inductive Act where
  | call (c : Call)
  /-- what another holder of the buffer does to it meanwhile -/
  | buffer (data : Option Buffer)

def Act.run (fresh : Nat → UInt8) (m : Message) : Act → Option Message
  | .call c => c.run fresh m
  | .buffer data => some { m with data_ := data }

/-- The call is no `resend` with another sender. -/
def Act.KeepsSender (sender : UInt32) : Act → Prop
  | .call (.resend sender' _ _ _ _) => sender' = sender
  | _ => True

structure Handler where
  /-- whether the service has set its callback -/
  callback : Bool
  acts : List Act
  error : Option (List UInt8)

def Handler.KeepsSender (h : Handler) (sender : UInt32) : Prop := ∀ act ∈ h.acts, act.KeepsSender sender

/-- `lua_service::dispatch` -/
def Handler.dispatch (h : Handler) (fresh : Nat → UInt8) (router : Router) (s : Service)
    (msg : Message) : Option (Message × Option Sent) :=
  if !s.ok then some (msg, none)
  else if !h.callback then some (msg, none)
  else (h.acts.foldlM (Act.run fresh) msg).map (callbackDone fresh router h.error)

/-- `service::handle_message`, with the message after it. -/
def Handler.handleMessage (h : Handler) (fresh : Nat → UInt8) (router : Router) (s : Service)
    (msg : Message) : Option (Message × HandledMessage) := do
  let (m, reply) ← h.dispatch fresh router s msg
  let forwarded :=
    if m.receiver_ ≠ s.id ∧ m.receiver_ ≠ 0 then
      if m.broadcast then none else some (router.sendMessage m)
    else none
  some (m, ⟨reply, forwarded⟩)

/-- The loop of `handle_one` over `services_`.  A message that went on is null for the services
after. -/
def broadcastLoop (fresh : Nat → UInt8) (router : Router) (handlers : Service → Handler) :
    List Service → Message → Option (List HandledMessage)
  | [], _ => some []
  | s :: rest, msg =>
    if s.ok && s.id != msg.sender_ then do
      let (m, handled) ← (handlers s).handleMessage fresh router s msg
      if handled.forwarded.isSome then
        if rest.any fun s => s.ok then none else some [handled]
      else
        let more ← broadcastLoop fresh router handlers rest m
        some (handled :: more)
    else broadcastLoop fresh router handlers rest msg

/-- `worker::handle_one`, handlers included. -/
def process (fresh : Nat → UInt8) (router : Router) (services : List Service) (ser : Option Service)
    (handlers : Service → Handler) (msg : Message) : Option (List HandledMessage) :=
  if msg.broadcast then broadcastLoop fresh router handlers services msg
  else do
    let one ← handleOne fresh router services ser msg
    match one.dispatched with
    | [] => some [⟨one.reply, none⟩]
    | s :: _ =>
      let (_, handled) ← (handlers s).handleMessage fresh router s msg
      some [handled]

variable {fresh : Nat → UInt8} {router : Router} {services : List Service} {ser : Option Service}
  {s : Service} {msg m : Message} {h : Handler}

/-- A handler that redirects only. -/
theorem dispatch_redirects (callback : Bool) (redirects : List Redirect) (error : Option (List UInt8)) :
    Handler.dispatch ⟨callback, redirects.map fun r => .call (.redirect r), error⟩ fresh router s msg
      = some (Server.dispatch fresh router ⟨s.id, s.ok, callback⟩ ⟨redirects, error⟩ msg) := by
  have hfold : ∀ m : Message, (redirects.map fun r => Act.call (.redirect r)).foldlM (Act.run fresh) m
      = some (redirects.foldl Message.redirect m) := by
    induction redirects with
    | nil => intro m; rfl
    | cons r redirects ih => intro m; exact ih (m.redirect r)
  unfold Handler.dispatch Server.dispatch
  dsimp only
  rw [hfold]
  cases s.ok <;> cases callback <;> rfl

theorem handleMessage_redirects (callback : Bool) (redirects : List Redirect)
    (error : Option (List UInt8)) :
    (Handler.handleMessage ⟨callback, redirects.map fun r => .call (.redirect r), error⟩ fresh router
        s msg).map Prod.snd
      = some (Server.handleMessage fresh router ⟨s.id, s.ok, callback⟩ ⟨redirects, error⟩ msg) := by
  unfold Handler.handleMessage
  rw [dispatch_redirects]
  unfold Server.handleMessage
  simp only [Option.bind_eq_bind, Option.bind_some, Option.map_some]
  split
  · split <;> rfl
  · rfl

/-! ## Messages without a sender -/

theorem onBuffer_sender {f : Buffer → Option Buffer} (hrun : msg.onBuffer f = some m) :
    m.sender_ = msg.sender_ := by
  unfold Message.onBuffer at hrun
  simp only [Option.bind_eq_bind, Option.bind_eq_some_iff, Option.some.injEq] at hrun
  obtain ⟨b, -, b', -, rfl⟩ := hrun
  rfl

theorem act_sender {act : Act} (hkeeps : act.KeepsSender msg.sender_)
    (hrun : act.run fresh msg = some m) : m.sender_ = msg.sender_ := by
  cases act with
  | buffer data =>
    cases hrun
    rfl
  | call c =>
    cases c with
    | seek pos origin => exact onBuffer_sender hrun
    | writeBack data => exact onBuffer_sender hrun
    | writeFront data => exact onBuffer_sender hrun
    | offsetWritepos offset => exact onBuffer_sender hrun
    | unpackOne => exact onBuffer_sender hrun
    | redirect r =>
      cases hrun
      exact setHeader_sender msg r.header
    | resend sender receiver header sessionid type =>
      cases hrun
      exact hkeeps

theorem acts_sender {acts : List Act} (hkeeps : ∀ act ∈ acts, act.KeepsSender msg.sender_)
    (hrun : acts.foldlM (Act.run fresh) msg = some m) : m.sender_ = msg.sender_ := by
  induction acts generalizing msg with
  | nil =>
    cases hrun
    rfl
  | cons act acts ih =>
    simp only [List.foldlM_cons, Option.bind_eq_bind, Option.bind_eq_some_iff] at hrun
    obtain ⟨m₁, hact, hrest⟩ := hrun
    have hone := act_sender (hkeeps act (by simp)) hact
    refine (ih (fun act hact => ?_) hrest).trans hone
    rw [hone]
    exact hkeeps act (by simp [hact])

theorem response_zero {header content : List UInt8} {sessionid : Int32} {mtype : UInt8} :
    router.response fresh 0 header content sessionid mtype = none := if_pos (.inl rfl)

theorem response_sender {receiver : UInt32} {header content : List UInt8} {sessionid : Int32}
    {mtype : UInt8}
    (hsent : Sent.delivered (router.response fresh receiver header content sessionid mtype) = some m) :
    m.sender_ = 0 := by
  unfold Router.response at hsent
  split at hsent
  · cases hsent
  · rw [delivered_sendMessage, Option.ite_none_right_eq_some] at hsent
    obtain ⟨-, hm⟩ := hsent
    cases hm
    exact setHeader_sender _ header

/-- An error is not answered to nobody. -/
theorem callbackDone_quiet (fresh : Nat → UInt8) (router : Router) (error : Option (List UInt8))
    (hzero : msg.sender_ = 0) :
    (callbackDone fresh router error msg).2 = none ∧
      (callbackDone fresh router error msg).1.sender_ = 0 := by
  unfold callbackDone
  cases error with
  | none => exact ⟨rfl, hzero⟩
  | some what =>
    dsimp only
    split
    · exact ⟨rfl, hzero⟩
    · refine ⟨?_, hzero⟩
      show router.response fresh msg.sender_ _ what _ PTYPE_ERROR = none
      rw [hzero, response_zero]

/-- No answer, and what goes on has no sender. -/
def Quiet (handled : HandledMessage) : Prop :=
  handled.reply = none ∧ ∀ m, Sent.delivered handled.forwarded = some m → m.sender_ = 0

theorem dispatch_quiet {reply : Option Sent} (hzero : msg.sender_ = 0) (hkeeps : h.KeepsSender 0)
    (hrun : h.dispatch fresh router s msg = some (m, reply)) : reply = none ∧ m.sender_ = 0 := by
  unfold Handler.dispatch at hrun
  split at hrun
  · cases hrun
    exact ⟨rfl, hzero⟩
  · split at hrun
    · cases hrun
      exact ⟨rfl, hzero⟩
    · obtain ⟨m₁, hacts, hdone⟩ := Option.map_eq_some_iff.mp hrun
      have hsender : m₁.sender_ = 0 := (acts_sender (by rwa [hzero]) hacts).trans hzero
      have hquiet := callbackDone_quiet fresh router h.error hsender
      rw [hdone] at hquiet
      exact hquiet

theorem handleMessage_quiet {handled : HandledMessage} (hzero : msg.sender_ = 0)
    (hkeeps : h.KeepsSender 0) (hrun : h.handleMessage fresh router s msg = some (m, handled)) :
    Quiet handled ∧ m.sender_ = 0 := by
  unfold Handler.handleMessage at hrun
  simp only [Option.bind_eq_bind, Option.bind_eq_some_iff, Option.some.injEq,
    Prod.mk.injEq] at hrun
  obtain ⟨⟨m₁, reply⟩, hdispatch, rfl, rfl⟩ := hrun
  obtain ⟨hreply, hsender⟩ := dispatch_quiet hzero hkeeps hdispatch
  refine ⟨⟨hreply, fun m hm => ?_⟩, hsender⟩
  dsimp only at hm
  split at hm
  · split at hm
    · cases hm
    · rw [delivered_sendMessage, Option.ite_none_right_eq_some] at hm
      obtain ⟨-, hm⟩ := hm
      cases hm
      exact hsender
  · cases hm

/-- Answers have no sender. -/
def Unsigned (handled : HandledMessage) : Prop :=
  ∀ m, Sent.delivered handled.reply = some m → m.sender_ = 0

theorem handleMessage_unsigned {handled : HandledMessage}
    (hrun : h.handleMessage fresh router s msg = some (m, handled)) : Unsigned handled := by
  have hdone : ∀ m, Unsigned ⟨(callbackDone fresh router h.error m).2, none⟩ := by
    intro m m' hm'
    unfold callbackDone at hm'
    split at hm'
    · cases hm'
    · split at hm'
      · cases hm'
      · exact response_sender hm'
  unfold Handler.handleMessage Handler.dispatch at hrun
  simp only [Option.bind_eq_bind, Option.bind_eq_some_iff, Option.some.injEq,
    Prod.mk.injEq] at hrun
  obtain ⟨⟨m₁, reply⟩, hdispatch, -, rfl⟩ := hrun
  split at hdispatch
  · cases hdispatch
    exact nofun
  · split at hdispatch
    · cases hdispatch
      exact nofun
    · obtain ⟨m₂, -, hm₂⟩ := Option.map_eq_some_iff.mp hdispatch
      obtain rfl : (callbackDone fresh router h.error m₂).2 = reply := congrArg Prod.snd hm₂
      exact hdone m₂

section

variable {handlers : Service → Handler} {I : Message → Prop} {P : HandledMessage → Prop}
  {handled : List HandledMessage}

/-- What holds of every service's turn holds of all. -/
theorem broadcastLoop_rule
    (hone : ∀ s msg m one, I msg → (handlers s).handleMessage fresh router s msg = some (m, one) →
      P one ∧ I m)
    (hmsg : I msg) (hrun : broadcastLoop fresh router handlers services msg = some handled) :
    ∀ one ∈ handled, P one := by
  induction services generalizing msg handled with
  | nil =>
    cases hrun
    simp
  | cons s rest ih =>
    rw [broadcastLoop] at hrun
    split at hrun
    · simp only [Option.bind_eq_bind, Option.bind_eq_some_iff] at hrun
      obtain ⟨⟨m, one⟩, hhandled, hrun⟩ := hrun
      obtain ⟨hP, hI⟩ := hone s msg m one hmsg hhandled
      dsimp only at hrun
      split at hrun
      · split at hrun
        · cases hrun
        · cases hrun
          simpa using hP
      · simp only [Option.bind_eq_some_iff, Option.some.injEq] at hrun
        obtain ⟨more, hmore, rfl⟩ := hrun
        exact List.forall_mem_cons.mpr ⟨hP, ih hI hmore⟩
    · exact ih hmsg hrun

theorem process_rule
    (hone : ∀ s msg m one, I msg → (handlers s).handleMessage fresh router s msg = some (m, one) →
      P one ∧ I m)
    (hdead : msg.broadcast = false → ∀ one, handleOne fresh router services ser msg = some one →
      P ⟨one.reply, none⟩)
    (hmsg : I msg) (hrun : process fresh router services ser handlers msg = some handled) :
    ∀ one ∈ handled, P one := by
  unfold process at hrun
  split at hrun
  · exact broadcastLoop_rule hone hmsg hrun
  next hb =>
    simp only [Option.bind_eq_bind, Option.bind_eq_some_iff] at hrun
    obtain ⟨one, hhandled, hrun⟩ := hrun
    split at hrun
    · cases hrun
      simpa using hdead (Bool.eq_false_iff.mpr hb) one hhandled
    · simp only [Option.bind_eq_some_iff, Option.some.injEq] at hrun
      obtain ⟨⟨m, one⟩, hone', rfl⟩ := hrun
      simpa using (hone _ msg m one hmsg hone').1

/-- What `handle_one` answers itself. -/
theorem handleOne_reply {one : HandledOne} (hb : msg.broadcast = false)
    (hone : handleOne fresh router services ser msg = some one) :
    Unsigned ⟨one.reply, none⟩ ∧ (msg.sender_ = 0 → one.reply = none) := by
  unfold handleOne at hone
  rw [if_neg (by rw [hb]; decide)] at hone
  split at hone
  · cases hone
    exact ⟨nofun, fun _ => rfl⟩
  · split at hone
    next hsender =>
      simp only [Option.bind_eq_bind, Option.bind_eq_some_iff, Option.some.injEq] at hone
      obtain ⟨content, -, rfl⟩ := hone
      exact ⟨fun m hm => response_sender hm, fun hzero => absurd hzero hsender⟩
    · cases hone
      exact ⟨nofun, fun _ => rfl⟩

/-- Whoever gets it, dead or live, returning or raising an error: a message without a sender is
not answered. -/
theorem process_quiet (hkeeps : ∀ s, (handlers s).KeepsSender 0) (hzero : msg.sender_ = 0)
    (hrun : process fresh router services ser handlers msg = some handled) :
    ∀ one ∈ handled, Quiet one := by
  refine process_rule (I := fun m => m.sender_ = 0) ?_ ?_ hzero hrun
  · intro s msg m one hmsg hone
    exact handleMessage_quiet hmsg (hkeeps s) hone
  · intro hb one hone
    exact ⟨(handleOne_reply hb hone).2 hzero, nofun⟩

theorem process_unsigned (hrun : process fresh router services ser handlers msg = some handled) :
    ∀ one ∈ handled, Unsigned one := by
  refine process_rule (I := fun _ => True) ?_ ?_ trivial hrun
  · intro s msg m one _ hone
    exact ⟨handleMessage_unsigned hone, trivial⟩
  · intro hb one hone
    exact (handleOne_reply hb hone).1

end

/-! ## Runs -/

structure Flight where
  message : Message
  /-- made by `router::response`, or sent on from such a message -/
  report : Bool

structure Net where
  flights : List Flight := []
  /-- what the server answered to reports -/
  cascades : List Sent := []

inductive Event where
  /-- a message that `response` did not make -/
  | send (m : Message)
  /-- anyone calls `router::response` -/
  | respond (fresh : Nat → UInt8) (receiver : UInt32) (header content : List UInt8)
      (sessionid : Int32) (mtype : UInt8)
  /-- something happens to the buffer of a message in flight -/
  | touch (k : Nat) (data : Option Buffer)
  | process (k : Nat) (fresh : Nat → UInt8) (services : List Service) (ser : Option Service)
      (handlers : Service → Handler)

/-- What is in flight after a message: the answer is a report, what goes on is what it was. -/
def HandledMessage.flights (report : Bool) (handled : HandledMessage) : List Flight :=
  (Sent.delivered handled.reply).toList.map (⟨·, true⟩) ++
    (Sent.delivered handled.forwarded).toList.map (⟨·, report⟩)

def Net.process (net : Net) (k : Nat) (fresh : Nat → UInt8) (router : Router)
    (services : List Service) (ser : Option Service) (handlers : Service → Handler) : Option Net := do
  let f ← net.flights[k]?
  let handled ← Server.process fresh router services ser handlers f.message
  some {
    flights := net.flights.eraseIdx k ++ handled.flatMap (HandledMessage.flights f.report)
    cascades := net.cascades ++ if f.report then handled.filterMap HandledMessage.reply else [] }

/-- Handlers of reports keep the sender. -/
def network (router : Router) : System Net Event where
  start net := net = {}
  step net e net' :=
    match e with
    | .send m => net' = { net with flights := net.flights ++ [⟨m, false⟩] }
    | .respond fresh receiver header content sessionid mtype =>
      net' = { net with
        flights := net.flights ++
          (Sent.delivered (router.response fresh receiver header content sessionid mtype)).toList.map
            (⟨·, true⟩) }
    | .touch k data =>
      net' = { net with
        flights := net.flights.modify k fun f => { f with message := { f.message with data_ := data } } }
    | .process k fresh services ser handlers =>
      (∀ f ∈ net.flights[k]?, f.report = true → ∀ s, (handlers s).KeepsSender f.message.sender_) ∧
        net.process k fresh router services ser handlers = some net'

/-- No answer to a report so far, and none of those in flight has a sender. -/
structure Net.Calm (net : Net) : Prop where
  cascades : net.cascades = []
  sender : ∀ f ∈ net.flights, f.report = true → f.message.sender_ = 0

variable {net net' : Net} {e : Event}

theorem Net.Calm.process {k : Nat} {handlers : Service → Handler} (hcalm : net.Calm)
    (hkeeps : ∀ f ∈ net.flights[k]?, f.report = true → ∀ s, (handlers s).KeepsSender f.message.sender_)
    (hrun : net.process k fresh router services ser handlers = some net') : net'.Calm := by
  unfold Net.process at hrun
  simp only [Option.bind_eq_bind, Option.bind_eq_some_iff, Option.some.injEq] at hrun
  obtain ⟨f, hf, handled, hhandled, rfl⟩ := hrun
  have hquiet : f.report = true → ∀ one ∈ handled, Quiet one := by
    intro hreport
    have hzero : f.message.sender_ = 0 := hcalm.sender f (List.mem_of_getElem? hf) hreport
    have hkeeps := hkeeps f hf hreport
    rw [hzero] at hkeeps
    exact process_quiet hkeeps hzero hhandled
  refine ⟨?_, fun g hg hreport => ?_⟩
  · show net.cascades ++ _ = []
    rw [hcalm.cascades, List.nil_append]
    split
    next hreport =>
      rw [List.filterMap_eq_nil_iff]
      exact fun one hone => (hquiet hreport one hone).1
    · rfl
  · rcases List.mem_append.mp hg with hold | hnew
    · exact hcalm.sender g (List.mem_of_mem_eraseIdx hold) hreport
    · obtain ⟨one, hone, hg⟩ := List.mem_flatMap.mp hnew
      rcases List.mem_append.mp hg with hreply | hforwarded
      · obtain ⟨m, hm, rfl⟩ := List.mem_map.mp hreply
        exact process_unsigned hhandled one hone m (Option.mem_toList.mp hm)
      · obtain ⟨m, hm, rfl⟩ := List.mem_map.mp hforwarded
        exact (hquiet hreport one hone).2 m (Option.mem_toList.mp hm)

theorem Net.Calm.step (hcalm : net.Calm) (hstep : (network router).step net e net') : net'.Calm := by
  cases e with
  | send m =>
    obtain rfl : net' = _ := hstep
    refine ⟨hcalm.cascades, fun f hf hreport => ?_⟩
    rcases List.mem_append.mp hf with hold | hnew
    · exact hcalm.sender f hold hreport
    · rw [List.mem_singleton] at hnew
      subst hnew
      cases hreport
  | respond fresh receiver header content sessionid mtype =>
    obtain rfl : net' = _ := hstep
    refine ⟨hcalm.cascades, fun f hf hreport => ?_⟩
    rcases List.mem_append.mp hf with hold | hnew
    · exact hcalm.sender f hold hreport
    · obtain ⟨m, hm, rfl⟩ := List.mem_map.mp hnew
      exact response_sender (Option.mem_toList.mp hm)
  | touch k data =>
    obtain rfl : net' = _ := hstep
    refine ⟨hcalm.cascades, fun f hf hreport => ?_⟩
    obtain ⟨i, hi, hf⟩ := List.mem_iff_getElem.mp hf
    rw [List.getElem_modify] at hf
    have hold := List.getElem_mem (l := net.flights) (by simpa using hi)
    split at hf
    · subst hf
      have hzero := hcalm.sender _ hold hreport
      exact hzero
    · subst hf
      exact hcalm.sender _ hold hreport
  | process k fresh services ser handlers => exact hcalm.process hstep.1 hstep.2

/-- **Reports do not cascade.** -/
theorem no_cascade (hreach : (network router).Reach net) :
    net.cascades = [] ∧ ∀ f ∈ net.flights, f.report = true → f.message.sender_ = 0 := by
  have hcalm : net.Calm := by
    refine hreach.invariant ?_ fun _ _ _ _ hcalm hstep => hcalm.step hstep
    rintro net rfl
    exact ⟨rfl, by simp⟩
  exact ⟨hcalm.cascades, hcalm.sender⟩

/-- Service 1 gets a report, redirects it to service 2 and raises an error. -/
theorem no_cascade_redirected : ∃ net f, (network oneWorker).Reach net ∧ net.flights = [f] ∧
    f.report = true ∧ f.message.receiver_ = 0x01000002 ∧ f.message.sessionid_ = 7 ∧
    f.message.sender_ = 0 ∧ net.cascades = [] := by
  have hstart : (network oneWorker).Reach {} := System.Reach.start rfl
  have hreported := hstart.step (a := Event.respond (fun _ => 0) 0x01000001 [] [] (-7) PTYPE_ERROR) rfl
  obtain ⟨net, f, hreach, hflights, hreport, hreceiver, hsession⟩ :
      ∃ net f, (network oneWorker).Reach net ∧ net.flights = [f] ∧ f.report = true ∧
        f.message.receiver_ = 0x01000002 ∧ f.message.sessionid_ = 7 := by
    refine ⟨_, _, hreported.step (a := .process 0 (fun _ => 0) [⟨0x01000001, 0, true, by decide⟩] none
      fun _ => ⟨true, [.call (.redirect ⟨[], 0x01000002, PTYPE_ERROR⟩)], some [33]⟩) ⟨?_, rfl⟩, rfl, rfl,
      rfl, rfl⟩
    intro f _ _ s act hact
    rw [List.mem_singleton.mp hact]
    trivial
  obtain ⟨hcascades, hsender⟩ := no_cascade hreach
  have hmem : f ∈ net.flights := by rw [hflights]; exact List.mem_singleton_self f
  exact ⟨net, f, hreach, hflights, hreport, hreceiver, hsession, hsender f hmem hreport, hcascades⟩

end HappyServer.Server
