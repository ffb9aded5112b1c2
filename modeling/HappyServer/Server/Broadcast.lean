import HappyServer.Server.Handling
import HappyServer.Worker.Delivery
import Mathlib.Data.List.Nodup

/-!
# Delivery of a broadcast (`router::broadcast`, `worker::handle_one`)

A broadcast is one message for each worker, and the mark that it is one is in its buffer.  A
message without a buffer takes the other branch of `handle_one`, to the receiver 0.

    every worker dispatches it to the services that are ok and not the sender, once
      ↔ there is a buffer, or no such service                                 (broadcast_iff)
-/

namespace HappyServer.Server

open Worker (Service findService)

/-! ## The payloads of Lua -/

/-- What `sol_lua_check` admits; a string of Lua is shorter than `MAX_SIZE`. -/
inductive Payload where
  | nil
  | string (data : List UInt8) (fits : data.length + BUFFER_HEAD_RESERVED < 2 ^ 63)
  /-- a `buffer*`, which is null for the buffer of a message without one -/
  | lightuserdata (p : Option Buffer)

/-- `sol_lua_get` -/
def Payload.get (fresh : Nat → UInt8) : Payload → Option Buffer
  | .nil => none
  | .string data _ => createBuffer fresh data
  | .lightuserdata p => p

def Payload.isNull : Payload → Bool
  | .nil => true
  | .string _ _ => false
  | .lightuserdata p => p.isNone

variable {fresh : Nat → UInt8} {router : Router}

theorem get_isNull (fresh : Nat → UInt8) (payload : Payload) :
    payload.get fresh = none ↔ payload.isNull = true := by
  cases payload with
  | nil => exact ⟨fun _ => rfl, fun _ => rfl⟩
  | string data fits =>
    obtain ⟨b, hb, -⟩ := createBuffer_sound fresh fits
    show createBuffer fresh data = none ↔ false = true
    simp [hb]
  | lightuserdata p => exact Option.isNone_iff_eq_none.symm

/-! ## Both branches of `handle_one` -/

theorem hasFlag_setFlag (b : Buffer) {v : UInt32} (h : v ≠ 0) : (b.setFlag v).hasFlag v = true := by
  have hv : (b.flag_ ||| v) &&& v = v := by
    apply UInt32.toNat_inj.mp
    rw [UInt32.toNat_and, UInt32.toNat_or]
    apply Nat.eq_of_testBit_eq
    intro i
    simp only [Nat.testBit_and, Nat.testBit_or]
    cases v.toNat.testBit i <;> simp
  show decide ((b.flag_ ||| v) &&& v ≠ 0) = true
  rw [hv]
  exact decide_eq_true h

variable {sender : UInt32} {header : List UInt8} {type : UInt8}

theorem broadcastMessage_data (buf : Option Buffer) :
    (Router.broadcastMessage sender buf header type).data_ =
      buf.map fun b => b.setFlag FLAG_BROADCAST := by
  refine (setHeader_data _ header).trans ?_
  cases buf <;> rfl

theorem broadcastMessage_broadcast (buf : Option Buffer) :
    (Router.broadcastMessage sender buf header type).broadcast = buf.isSome := by
  unfold Message.broadcast
  rw [broadcastMessage_data]
  cases buf with
  | none => rfl
  | some b => exact hasFlag_setFlag b (by decide)

theorem broadcastMessage_receiver (buf : Option Buffer) :
    (Router.broadcastMessage sender buf header type).receiver_ = 0 := by
  refine (setHeader_receiver _ header).trans ?_
  cases buf <;> rfl

/-- Only a message with a buffer is a broadcast to the worker that handles it. -/
theorem broadcastMessage_mailbox (buf : Option Buffer) :
    (Router.broadcastMessage sender buf header type).toMailbox =
      if buf.isSome then .broadcast sender (Router.broadcastMessage sender buf header type)
      else .direct sender 0 (Router.broadcastMessage sender buf header type) := by
  unfold Message.toMailbox
  rw [broadcastMessage_broadcast, broadcastMessage_receiver]
  rfl

theorem findService_zero (services : List Service) : findService services 0 = none := by
  unfold findService
  rw [List.find?_eq_none]
  intro s _
  simpa using s.id_ne

theorem handleOne_zero {ser : Option Service} {services : List Service} (m : Message) :
    (Worker.handleOne services ser (.direct sender 0 m)).2 = [] := by
  cases ser with
  | none => exact congrArg Option.toList (findService_zero services)
  | some s =>
    show (if s.id ≠ 0 then findService services 0 else some s).toList = []
    rw [if_pos s.id_ne, findService_zero]
    rfl

/-! ## Delivery -/

/-- A service that a broadcast of this sender is for. -/
def Eligible (sender : UInt32) (s : Service) : Prop := s.ok = true ∧ s.id ≠ sender

instance (sender : UInt32) (s : Service) : Decidable (Eligible sender s) :=
  inferInstanceAs (Decidable (_ ∧ _))

/-- The `k`-th message that a worker accepted is handled once it goes on, and then dispatched once to
each of the services that it is for, and to no other. -/
structure DeliveredOnce (sender : UInt32) (k : Nat) (s : Worker.State Message) : Prop where
  once : ∀ h, s.handled[k]? = some h → ∀ x,
    h.dispatched.count x = if x ∈ h.live ∧ Eligible sender x then 1 else 0
  handled : ∀ run act, run 0 = s → Worker.FairRun run act → ∃ n, k < (run n).handled.length

theorem count_filter {services : List Service} (hids : services.Pairwise fun a b => a.id ≠ b.id)
    (x : Service) : (services.filter fun s => s.ok && s.id != sender).count x =
      if x ∈ services ∧ Eligible sender x then 1 else 0 := by
  have hnodup : services.Nodup := hids.imp fun hne heq => hne (congrArg Service.id heq)
  have hmem : x ∈ (services.filter fun s => s.ok && s.id != sender) ↔
      x ∈ services ∧ Eligible sender x := by
    rw [List.mem_filter, Bool.and_eq_true, bne_iff_ne]
    rfl
  split
  next h => exact List.count_eq_one_of_mem (hnodup.filter _) (hmem.mpr h)
  next h => exact List.count_eq_zero.mpr (mt hmem.mp h)

section Accepted

variable {s : Worker.State Message} {k : Nat}

/-- The `k`-th message handled is the `k`-th one accepted. -/
theorem handled_msg (hs : Worker.Reach s) {h : Worker.Handled Message} (hk : s.handled[k]? = some h) :
    s.pushed[k]? = some h.msg := by
  obtain ⟨hlt, hget⟩ := List.getElem?_eq_some_iff.mp hk
  rw [hs.inv.order, List.append_assoc, List.getElem?_append_left (by simpa using hlt),
    List.getElem?_map, hk]
  rfl

theorem accepted_handled (hs : Worker.Reach s) {msg : Worker.Message Message}
    (hk : s.pushed[k]? = some msg) (run : Nat → Worker.State Message)
    (act : Nat → Option (Worker.Action Message)) (hrun : run 0 = s) (hfair : Worker.FairRun run act) :
    ∃ n, k < (run n).handled.length := by
  obtain ⟨n, hprefix⟩ := hfair.delivers (hrun ▸ hs.inv)
  obtain ⟨hlt, -⟩ := List.getElem?_eq_some_iff.mp hk
  have hle := hprefix.length_le
  rw [hrun, List.length_map] at hle
  exact ⟨n, hlt.trans_le hle⟩

/-- What a worker does with the message of a broadcast. -/
theorem deliveredOnce_iff (hs : Worker.Reach s) (buf : Option Buffer)
    (hk : s.pushed[k]? = some (Router.broadcastMessage sender buf header type).toMailbox) :
    DeliveredOnce sender k s ↔ buf.isSome = true ∨
      ∀ h, s.handled[k]? = some h → ∀ x ∈ h.live, ¬Eligible sender x := by
  have hmsg : ∀ h, s.handled[k]? = some h →
      h.msg = (Router.broadcastMessage sender buf header type).toMailbox := fun h hh =>
    Option.some.inj ((handled_msg hs hh).symm.trans hk)
  rw [broadcastMessage_mailbox] at hmsg
  cases buf with
  | some b =>
    refine iff_of_true ⟨fun h hh x => ?_, accepted_handled hs hk⟩ (.inl rfl)
    obtain ⟨hids, ser, -, hone⟩ := hs.byHandleOne h (List.mem_of_getElem? hh)
    rw [hone, hmsg h hh]
    exact count_filter hids x
  | none =>
    have hnone : ∀ h, s.handled[k]? = some h → h.dispatched = [] := by
      intro h hh
      obtain ⟨-, ser, -, hone⟩ := hs.byHandleOne h (List.mem_of_getElem? hh)
      rw [hone, hmsg h hh]
      exact handleOne_zero _
    constructor
    · intro hdelivered
      refine .inr fun h hh x hx hx' => ?_
      have honce := hdelivered.once h hh x
      rw [hnone h hh, if_pos ⟨hx, hx'⟩] at honce
      cases honce
    · rintro (hsome | hempty)
      · cases hsome
      · refine ⟨fun h hh x => ?_, accepted_handled hs hk⟩
        rw [hnone h hh, if_neg fun hx => hempty h hh x hx.1 hx.2]
        rfl

end Accepted

/-- A broadcast reaches whom it is for exactly when it has a buffer, or is for nobody. -/
theorem broadcast_iff (fresh : Nat → UInt8) (router : Router) (sender : UInt32) (payload : Payload)
    (header : List UInt8) (type : UInt8) (st : Fin router.workers → Worker.State Message)
    (k : Fin router.workers → Nat) (hreach : ∀ i, Worker.Reach (st i))
    (hsent : ∀ i, (st i).pushed[k i]? =
      (router.broadcast sender (payload.get fresh) header type)[i.val]?.map Message.toMailbox) :
    (∀ i, DeliveredOnce sender (k i) (st i)) ↔ payload.isNull = false ∨
      ∀ i h, (st i).handled[k i]? = some h → ∀ x ∈ h.live, ¬Eligible sender x := by
  have hiff : ∀ i, DeliveredOnce sender (k i) (st i) ↔ payload.isNull = false ∨
      ∀ h, (st i).handled[k i]? = some h → ∀ x ∈ h.live, ¬Eligible sender x := by
    intro i
    have hsent' := hsent i
    unfold Router.broadcast at hsent'
    rw [List.getElem?_replicate_of_lt i.isLt, Option.map_some] at hsent'
    rw [deliveredOnce_iff (hreach i) _ hsent', ← Bool.not_eq_true payload.isNull, ← get_isNull fresh,
      Option.isSome_iff_ne_none]
  rw [forall_congr' hiff, forall_or_left]

theorem secondId_ne : (0x01000002 : UInt32) ≠ 0 := by decide

/-- A service comes up and gets this message. -/
def serve (msg : Worker.Message Message) : List (Worker.Action Message) :=
  [.post (.addService ⟨0x01000002, 0, true, secondId_ne⟩), .advance, .advance,
    .push (.sender 0) msg, .enqueue (.sender 0), .advance, .advance, .advance, .advance]

def hello : Payload := .string [104, 105] (by decide)

/-- A string that service 1 broadcasts, with service 2 on the only worker. -/
theorem broadcast_hello : ∃ s : Worker.State Message, Worker.Reach s ∧ s.handled.length = 1 ∧
    DeliveredOnce 0x01000001 0 s := by
  have hs := Worker.reach_foldlM Worker.Reach.init (serve (Message.toMailbox
    (Router.broadcastMessage 0x01000001 (hello.get fun _ => 0) [] PTYPE_SYSTEM))) rfl
  exact ⟨_, hs, rfl, (broadcast_iff (fun _ => 0) oneWorker 0x01000001 hello [] PTYPE_SYSTEM
    (fun _ => _) (fun _ => 0) (fun _ => hs) (fun i => by rw [Fin.fin_one_eq_zero i]; rfl)).mpr
    (.inl rfl) onlyWorker⟩

/-- `broadcast(sender, nil, …)` reaches nobody. -/
theorem not_broadcast : ¬∀ (fresh : Nat → UInt8) (router : Router) (sender : UInt32)
    (payload : Payload) (header : List UInt8) (type : UInt8)
    (st : Fin router.workers → Worker.State Message) (k : Fin router.workers → Nat),
    (∀ i, Worker.Reach (st i)) →
    (∀ i, (st i).pushed[k i]? =
      (router.broadcast sender (payload.get fresh) header type)[i.val]?.map Message.toMailbox) →
    ∀ i, DeliveredOnce sender (k i) (st i) := by
  intro h
  have hs := Worker.reach_foldlM Worker.Reach.init (serve (Message.toMailbox
    (Router.broadcastMessage 0x01000001 none [] PTYPE_SYSTEM))) rfl
  have honce := (h (fun _ => 0) oneWorker 0x01000001 .nil [] PTYPE_SYSTEM (fun _ => _) (fun _ => 0)
    (fun _ => hs) (fun i => by rw [Fin.fin_one_eq_zero i]; rfl) onlyWorker).once _ rfl
    ⟨0x01000002, 0, true, secondId_ne⟩
  exact absurd honce (by decide)

end HappyServer.Server
