import HappyServer.Serialize.RoundTrip
import HappyServer.Server.Isolation
import HappyServer.Worker.Delivery

/-!
# Values from one service to another (`magic/lua_serialize.cpp` to `core/worker.cpp`)

A script packs values and sends them: `pack` makes a buffer, `router::send` a message around it, and
the receiver's worker takes it from its mailbox.  The receiver's script unpacks the bytes of the message
it is called with.

* `packBuffer pieces`: the buffer of `pack`, written piece by piece.
* `x.Mails fresh router m`: the message that the call `x` of `send` puts into a mailbox.
* `x.Arrives h`: `h` handled the values, with what else was sent.
* `Origins router origins pushed`: which of the pushes are those of calls of `send`.

    Origins router origins s.pushed → Arrived (origins.take s.handled.length) s.handled,
      and of a fair run in the end all of `origins`                                     (channel)
-/

namespace HappyServer.Server.Channel

open Word Buffer Traced
open Serialize (Store LuaValue Rep Within Plain MAX_DEPTH)
open Worker (Reach State FairRun Handled)

variable {τ : Type} {fresh : Nat → UInt8} {router : Router} {b : Buffer} {q data : List UInt8}

/-! ## The buffer of `pack` -/

/-- `HEAP_BUFFER` -/
def FLAG_HEAP_BUFFER : UInt32 := 1

/-- `pieces` are what `pack_one` and the functions below it write, one `write_back` each. -/
def packBuffer (fresh : Nat → UInt8) (pieces : List (List UInt8)) : Option Buffer := do
  let buf ← Buffer.make fresh 64 BUFFER_HEAD_RESERVED
  let buf := buf.setFlag FLAG_HEAP_BUFFER
  let buf ← pieces.foldlM (fun b piece => b.writeBack fresh piece) buf
  some (buf.clearFlag FLAG_HEAP_BUFFER)

/-- Nothing has been read of it yet. -/
structure Unread (b : Buffer) (q : List UInt8) : Prop extends Sound b q where
  read : b.readpos_ = BUFFER_HEAD_RESERVED
  head : b.headreserved_ = BUFFER_HEAD_RESERVED

theorem Unread.room {need : Nat} (h : Unread b q)
    (hlt : q.length + need + BUFFER_HEAD_RESERVED < 2 ^ 63) : b.Room need := by
  have hlen := h.holds.length_eq
  have hread := h.read
  have hhead := h.head
  by_cases hgrows : b.grows need
  · refine Or.inr (Or.inl ⟨hgrows, ?_⟩)
    rw [add64_of_lt _ _ (by omega)]
    exact le_nextPow2 (by omega)
  · exact Or.inr (Or.inr ⟨hgrows, by omega⟩)

theorem Unread.checkSpace {need : Nat} (fresh : Nat → UInt8) (h : Unread b q)
    (hlt : q.length + need + BUFFER_HEAD_RESERVED < 2 ^ 63) :
    ∃ b', b.checkSpace fresh need = some b' ∧ Unread b' q := by
  have hroom := h.room hlt
  obtain ⟨b', hspace, -, -, hhead, hpos⟩ := h.holds.checkSpace fresh h.ordered h.intact hroom
  obtain ⟨b'', hspace', hsound, -⟩ := h.toSound.checkSpace fresh hroom
  obtain rfl := Option.some.inj (hspace.symm.trans hspace')
  have hread := h.read
  have hreserved := h.head
  exact ⟨b', hspace, hsound, by omega, by omega⟩

theorem Unread.writeBack (fresh : Nat → UInt8) (h : Unread b q)
    (hlt : q.length + data.length + BUFFER_HEAD_RESERVED < 2 ^ 63) :
    ∃ b', b.writeBack fresh data = some b' ∧ Unread b' (q ++ data) := by
  obtain ⟨b', hwrite, hsound, -⟩ := h.toSound.writeBack fresh (h.room hlt)
  obtain ⟨hzero, rfl⟩ | ⟨b₁, b₂, -, hspace, hcopy, rfl⟩ := writeBack_some hwrite
  · exact ⟨b', hwrite, hsound, h.read, h.head⟩
  · obtain ⟨b₁', hspace', h₁⟩ := h.checkSpace fresh hlt
    obtain rfl := Option.some.inj (hspace.symm.trans hspace')
    obtain ⟨-, hsame⟩ := memcpy_some hcopy
    exact ⟨_, hwrite, hsound, hsame.read.trans h₁.read, hsame.head.trans h₁.head⟩

/-- All pieces, one after the other. -/
theorem Unread.writeAll (fresh : Nat → UInt8) (pieces : List (List UInt8)) : ∀ {b : Buffer} {q},
    Unread b q → q.length + pieces.flatten.length + BUFFER_HEAD_RESERVED < 2 ^ 63 →
    ∃ b', pieces.foldlM (fun b piece => b.writeBack fresh piece) b = some b' ∧
      Unread b' (q ++ pieces.flatten) ∧ b'.flag_ = b.flag_ := by
  induction pieces with
  | nil =>
    intro b q h _
    rw [List.flatten_nil, List.append_nil]
    exact ⟨b, rfl, h, rfl⟩
  | cons piece pieces ih =>
    intro b q h hlt
    rw [List.flatten_cons, List.length_append] at hlt
    have hpiece : q.length + piece.length + BUFFER_HEAD_RESERVED < 2 ^ 63 := by omega
    obtain ⟨b₁, hwrite, h₁⟩ := h.writeBack fresh hpiece
    obtain ⟨b', hrest, h', hflag⟩ := ih h₁ (by rw [List.length_append]; omega)
    refine ⟨b', ?_, ?_, hflag.trans (writeBack_flag hwrite)⟩
    · rw [List.foldlM_cons, hwrite]
      exact hrest
    · rw [List.flatten_cons, ← List.append_assoc]
      exact h'

theorem packBuffer_sound (fresh : Nat → UInt8) {pieces : List (List UInt8)}
    (hlt : pieces.flatten.length + BUFFER_HEAD_RESERVED < 2 ^ 63) :
    ∃ b, packBuffer fresh pieces = some b ∧ Sound b pieces.flatten ∧
      b.hasFlag FLAG_BROADCAST = false := by
  have hmake : Buffer.make fresh 64 BUFFER_HEAD_RESERVED = some (blank BUFFER_HEAD_RESERVED) := by
    unfold Buffer.make
    rw [if_neg (by decide)]
  have hblank : Unread ((blank BUFFER_HEAD_RESERVED).setFlag FLAG_HEAP_BUFFER) [] :=
    ⟨(sound_blank (by decide)).flag _, rfl, rfl⟩
  obtain ⟨b, hall, hunread, hflag⟩ := hblank.writeAll fresh pieces
    (by rw [List.length_nil]; omega)
  refine ⟨b.clearFlag FLAG_HEAP_BUFFER, ?_, hunread.toSound.flag _, ?_⟩
  · unfold packBuffer
    simp only [hmake, Option.bind_eq_bind, Option.bind_some, hall]
  · have hzero : (b.clearFlag FLAG_HEAP_BUFFER).flag_ = 0 := by
      show b.flag_ &&& ~~~FLAG_HEAP_BUFFER = 0
      rw [hflag]
      rfl
    unfold Buffer.hasFlag
    rw [hzero]
    decide

/-! ## Sending -/

/-- A call `send(sender, receiver, pack(…), header, sessionid, type)`; the tables are as they are
then. -/
structure Sending (τ : Type) where
  sender : UInt32
  receiver : UInt32
  store : Store τ
  values : List (LuaValue τ)
  header : List UInt8
  sessionid : Int32
  type : UInt8

/-- What can be packed without loss: in at most `MAX_DEPTH` tables, and of lengths that fit. -/
structure Sending.Fits (x : Sending τ) : Prop where
  ne_nil : x.values ≠ []
  within : ∀ v ∈ x.values,
    Within x.store (fun y => Plain x.store y ∧ Serialize.Fits x.store y) (MAX_DEPTH + 1) v
  short : ∀ bytes, Serialize.pack x.store x.values = .ok (some bytes) → bytes.length < 2 ^ 31

/-- The message reaches the receiver's worker. -/
def Sending.Mails (fresh : Nat → UInt8) (router : Router) (x : Sending τ) (m : Message) : Prop :=
  ∃ bytes pieces b, Serialize.pack x.store x.values = .ok (some bytes) ∧
    pieces.flatten = bytes ∧ packBuffer fresh pieces = some b ∧
    router.send x.sender x.receiver (some b) x.header x.sessionid x.type =
      .worker (workerId x.receiver) m

/-- The values are read again, and the rest is as it was sent. -/
structure Sending.Reads (x : Sending τ) (m : Message) : Prop where
  sender : m.sender_ = x.sender
  receiver : m.receiver_ = x.receiver
  type : m.type_ = x.type
  sessionid : m.sessionid_ = -x.sessionid
  header : m.header = x.header
  values : ∃ ws, Returns (Serialize.unpack m.bytes) 0 ws ∧
    List.Forall₂ (Rep x.store) x.values ws

/-- The receiver is called with it if it is there, and no one else is. -/
def Sending.Arrives (x : Sending τ) (h : Handled Message) : Prop :=
  ∃ m, h.msg = .direct x.sender x.receiver m ∧ x.Reads m ∧
    ∀ s ∈ h.live, s.id = x.receiver → h.dispatched = [s]

variable {x : Sending τ} {m : Message}

theorem send_eq {sender receiver : UInt32} {data : Option Buffer} {header : List UInt8}
    {sessionid : Int32} {type : UInt8} {w : UInt32}
    (h : router.send sender receiver data header sessionid type = .worker w m) :
    m = request sender receiver data header sessionid type := by
  unfold Router.send Router.sendMessage at h
  split at h
  · cases h
  · split at h
    · cases h
    · dsimp only at h
      split at h
      · cases h
      · exact (Sent.worker.inj h).2.symm

theorem header_setHeader (m : Message) (hnone : m.header_ = none) (header : List UInt8) :
    (m.setHeader header).header = header := by
  unfold Message.setHeader
  split
  next => rfl
  next hzero =>
    unfold Message.header
    rw [hnone, List.eq_nil_of_length_eq_zero (not_not.mp hzero)]
    rfl

/-- What was packed is unpacked from the message; and it is no broadcast. -/
theorem Sending.Mails.reads (h : x.Mails fresh router m) (hx : x.Fits) :
    x.Reads m ∧ m.toMailbox = .direct x.sender x.receiver m := by
  obtain ⟨bytes, pieces, b, hpack, hpieces, hbuffer, hsend⟩ := h
  have hlt := hx.short bytes hpack
  obtain ⟨b', hbuffer', hsound, hflag⟩ := packBuffer_sound fresh
    (show pieces.flatten.length + BUFFER_HEAD_RESERVED < 2 ^ 63 by
      rw [hpieces]
      have : BUFFER_HEAD_RESERVED = 14 := rfl
      omega)
  obtain rfl := Option.some.inj (hbuffer.symm.trans hbuffer')
  obtain rfl := send_eq hsend
  have hdata : (request x.sender x.receiver (some b) x.header x.sessionid x.type).data_ = some b := by
    unfold request
    simp
  have hsender : (request x.sender x.receiver (some b) x.header x.sessionid x.type).sender_
      = x.sender := by
    unfold request
    simp
  have hreceiver : (request x.sender x.receiver (some b) x.header x.sessionid x.type).receiver_
      = x.receiver := by
    unfold request
    simp
  have hbytes : (request x.sender x.receiver (some b) x.header x.sessionid x.type).bytes
      = bytes := by
    unfold Message.bytes
    rw [hdata]
    exact (hsound.holds.readable hsound.ordered).trans hpieces
  obtain ⟨bytes', ws, hpack', -, hunpack, hrep⟩ :=
    Serialize.roundTrips_of_fits hx.ne_nil hx.within hx.short
  obtain rfl : bytes' = bytes := Option.some.inj (Except.ok.inj (hpack'.symm.trans hpack))
  refine ⟨⟨hsender, hreceiver, rfl, rfl, header_setHeader _ rfl x.header, ws, ?_, hrep⟩, ?_⟩
  · rw [hbytes]
    exact hunpack
  · have hbroadcast : (request x.sender x.receiver (some b) x.header x.sessionid x.type).broadcast
        = false := by
      unfold Message.broadcast
      rw [hdata]
      exact hflag
    unfold Message.toMailbox
    rw [if_neg (by rw [hbroadcast]; decide), hsender, hreceiver]

/-- A call with a type, to an id on a worker, does reach it. -/
theorem Sending.Fits.mails (fresh : Nat → UInt8) (hx : x.Fits) (htype : x.type ≠ PTYPE_UNKNOWN)
    (hvalid : router.workeridValid (workerId x.receiver) = true) :
    ∃ m, x.Mails fresh router m := by
  obtain ⟨bytes, ws, hpack, -, -, -⟩ :=
    Serialize.roundTrips_of_fits hx.ne_nil hx.within hx.short
  have hlt := hx.short bytes hpack
  have hflatten : [bytes].flatten = bytes := by
    rw [List.flatten_cons, List.flatten_nil, List.append_nil]
  obtain ⟨b, hbuffer, -, -⟩ := packBuffer_sound fresh
    (show [bytes].flatten.length + BUFFER_HEAD_RESERVED < 2 ^ 63 by
      rw [hflatten]
      have : BUFFER_HEAD_RESERVED = 14 := rfl
      omega)
  refine ⟨request x.sender x.receiver (some b) x.header x.sessionid x.type, bytes, [bytes], b,
    hpack, hflatten, hbuffer, ?_⟩
  have hreceiver : (request x.sender x.receiver (some b) x.header x.sessionid x.type).receiver_
      = x.receiver := by
    unfold request
    simp
  unfold Router.send
  rw [sendMessage_eq htype (by rwa [hreceiver]), hreceiver]

/-! ## From the call to the handler -/

section

variable {s : State Message}

theorem arrives (hs : Worker.Inv s) {h : Handled Message} (hh : h ∈ s.handled) (hx : x.Fits)
    (hmails : x.Mails fresh router m) (hmsg : h.msg = m.toMailbox) : x.Arrives h := by
  obtain ⟨hreads, hdirect⟩ := hmails.reads hx
  refine ⟨m, hmsg.trans hdirect, hreads, fun s hlive hid => hs.sent h hh s hlive ?_⟩
  rw [hmsg, hdirect]
  exact hid

/-- The pushes and the calls of `send` they come from, if they come from one. -/
def Origins (router : Router) (origins : List (Option (Sending τ)))
    (pushed : List (Worker.Message Message)) : Prop :=
  List.Forall₂ (fun o msg => ∀ x, o = some x →
    x.Fits ∧ ∃ fresh m, x.Mails fresh router m ∧ msg = m.toMailbox) origins pushed

def Arrived (origins : List (Option (Sending τ))) (handled : List (Handled Message)) : Prop :=
  List.Forall₂ (fun o h => ∀ x, o = some x → x.Arrives h) origins handled

/-- Whatever was handled of the pushes. -/
theorem arrived_of_origins (router : Router) (hs : Worker.Inv s) {origins : List (Option (Sending τ))}
    {handled : List (Handled Message)} (hsub : ∀ h ∈ handled, h ∈ s.handled)
    (h : Origins router origins (handled.map Handled.msg)) : Arrived origins handled := by
  unfold Origins at h
  rw [List.forall₂_map_right_iff] at h
  have hmem := (List.forall₂_and_left (p := fun h => h ∈ s.handled) handled origins).mpr ⟨hsub, h.flip⟩
  refine hmem.flip.imp ?_
  rintro o h ⟨hh, ho⟩ x rfl
  obtain ⟨hx, fresh, m, hmails, hmsg⟩ := ho x rfl
  exact arrives hs hh hx hmails hmsg

end

/-- **From `pack` to `unpack`.**  Among whatever else is pushed, the values that were sent are handled in
the order of the pushes, each once and as they were, and all of them in the end. -/
theorem channel (router : Router) {s : State Message} (h : Reach s)
    (origins : List (Option (Sending τ))) (horigins : Origins router origins s.pushed) :
    Arrived (origins.take s.handled.length) s.handled ∧
    ∀ run act, run 0 = s → FairRun run act →
      ∃ k, Arrived origins ((run k).handled.take origins.length) := by
  refine ⟨?_, ?_⟩
  · refine arrived_of_origins router h.inv (fun _ => id) ?_
    have htake := List.forall₂_take s.handled.length horigins
    rwa [h.inv.order, List.append_assoc, List.take_left' (List.length_map ..)] at htake
  · rintro run act rfl hf
    obtain ⟨k, hk⟩ := hf.delivers h.inv
    refine ⟨k, arrived_of_origins router (hf.inv h.inv k) (fun _ => List.mem_of_mem_take) ?_⟩
    rw [List.map_take, horigins.length_eq]
    rwa [← List.prefix_iff_eq_take.mp hk]

/-- `send(…, pack({ "a", [true] = 2.5 }, -5, nil), …)` -/
def smallSending : Sending Unit where
  sender := 0x01000002
  receiver := 0x01000001
  store := fun _ => Serialize.smallTable
  values := [.table (), .scalar (.integer (-5)), .scalar .nil]
  header := []
  sessionid := 5
  type := 3

theorem smallSending_fits : smallSending.Fits := by
  refine ⟨List.cons_ne_nil _ _, fun v hv => Serialize.within_small hv, fun bytes hbytes => ?_⟩
  have hpack : Serialize.pack smallSending.store smallSending.values =
      .ok (some [14, 12, 97, 9, 66, 0, 0, 0, 0, 0, 0, 4, 64, 0, 34, 251, 255, 255, 255, 0]) := rfl
  rw [hpack, Except.ok.injEq, Option.some.injEq] at hbytes
  rw [← hbytes]
  decide

/-- The values come behind a broadcast. -/
theorem channel_one : ∃ (s : State Message) (m : Message), Reach s ∧
    s.pushed = [.broadcast 0 {}, m.toMailbox] ∧ s.handled.length = 2 ∧
    Arrived [none, some smallSending] s.handled := by
  obtain ⟨m, hmails⟩ : ∃ m, smallSending.Mails (fun _ => 0) oneWorker m :=
    smallSending_fits.mails (fun _ => 0) (by decide) (by decide)
  have hdirect := (hmails.reads smallSending_fits).2
  let actions : List (Worker.Action Message) :=
    [.post (.addService ⟨0x01000001, 0, true, by decide⟩), .advance, .advance,
      .push (.sender 0) (.broadcast 0 {}), .enqueue (.sender 0),
      .push (.sender 1) (.direct 0x01000002 0x01000001 m),
      .advance, .advance, .advance, .advance, .advance]
  obtain ⟨s, hs, hpushed, hhandled⟩ : ∃ s, Reach s ∧
      s.pushed = [.broadcast 0 {}, .direct 0x01000002 0x01000001 m] ∧ s.handled.length = 2 :=
    ⟨_, Worker.reach_foldlM Reach.init actions rfl, rfl, rfl⟩
  have horigins : Origins oneWorker [none, some smallSending] s.pushed := by
    rw [hpushed]
    refine .cons (fun x hx => (by cases hx)) (.cons (fun x hx => ?_) .nil)
    obtain rfl := Option.some.inj hx
    exact ⟨smallSending_fits, _, m, hmails, hdirect.symm⟩
  have harrived := (channel oneWorker hs _ horigins).1
  rw [hhandled] at harrived
  exact ⟨s, m, hs, by rw [hpushed, hdirect]; rfl, hhandled, harrived⟩

end HappyServer.Server.Channel
