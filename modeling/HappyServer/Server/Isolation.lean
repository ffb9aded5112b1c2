import HappyServer.Lib.Runs
import HappyServer.Serialize.Stream
import HappyServer.Server.Broadcast
import Mathlib.Logic.Function.Basic

/-!
# What the receivers of a broadcast see (`core/worker.cpp`, `magic/lua_bind.cpp`)

The services of a worker get one message object, one after the other, and the messages of all
workers have one buffer.  A run (`Round.system`) is any interleaving of the workers' loops, one
dispatch at a time, with any calls of the message's methods in every handler.

    every service the broadcast is for gets it once and sees what was broadcast
      ⇐ no handler changes what another service is still to see              (isolated_of_undisturbed)

A broadcast is not forwarded, so the message stays where it is, whatever its receiver.
-/

namespace HappyServer.Server

open Worker (Service)

/-! ## The message methods of Lua -/

inductive Call where
  | seek (pos : Int32) (origin : SeekOrigin)
  | writeBack (data : List UInt8)
  | writeFront (data : List UInt8)
  | offsetWritepos (offset : Int32)
  | redirect (r : Redirect)
  | resend (sender receiver : UInt32) (header : List UInt8) (sessionid : Int32) (type : UInt8)
  /-- `serialize.unpack_one(message.buffer)` -/
  | unpackOne

/-- `message.resend` -/
def Message.resend (m : Message) (sender receiver : UInt32) (header : List UInt8) (sessionid : Int32)
    (type : UInt8) : Message :=
  let m := m.setHeader header
  { m with sender_ := sender, receiver_ := receiver, type_ := type, sessionid_ := -sessionid }

/-- A method of `get_buffer()`. -/
def Message.onBuffer (m : Message) (f : Buffer → Option Buffer) : Option Message := do
  let b ← m.data_
  let b ← f b
  some { m with data_ := some b }

def Call.run (fresh : Nat → UInt8) (m : Message) : Call → Option Message
  | .seek pos origin => m.onBuffer fun b => some (b.seek pos.toInt origin)
  | .writeBack data => m.onBuffer fun b => b.writeBack fresh data
  | .writeFront data => m.onBuffer fun b => (b.writeFront data).map Prod.snd
  | .offsetWritepos offset => m.onBuffer fun b => some (b.offsetWritepos offset.toInt)
  | .redirect r => some (m.redirect r)
  | .resend sender receiver header sessionid type =>
    some (m.resend sender receiver header sessionid type)
  | .unpackOne => m.onBuffer fun b => some (Serialize.bufferUnpackOne 0 b).2

/-- What a handler can see of a message. -/
structure View where
  bytes : List UInt8
  header : List UInt8
  sender : UInt32
  type : UInt8
deriving DecidableEq

def Message.view (m : Message) : View := ⟨m.bytes, m.header, m.sender_, m.type_⟩

/-! ## The workers' loops -/

/-- A broadcast of a payload that is not null, and the services of each worker. -/
structure Round (router : Router) where
  sender : UInt32
  payload : Buffer
  header : List UInt8
  type : UInt8
  services : Fin router.workers → List Service
  ids : ∀ i, (services i).Pairwise fun a b => a.id ≠ b.id

structure Seen (router : Router) where
  worker : Fin router.workers
  service : Service
  view : View
deriving DecidableEq

structure Spread (router : Router) where
  buffer : Buffer
  /-- the message of each worker; its data is `buffer` -/
  envelope : Fin router.workers → Message
  /-- what is left of `services_` in the loop, once the worker handles the message -/
  rest : Fin router.workers → Option (List Service)
  /-- what was dispatched, in order -/
  seen : List (Seen router) := []

inductive Move (router : Router) where
  | begins (i : Fin router.workers)
  | turn (i : Fin router.workers) (fresh : Nat → UInt8) (calls : List Call) (error : Option (List UInt8))

variable {router : Router}

def Round.view (round : Round router) : View :=
  ⟨round.payload.readable, round.header, round.sender, round.type⟩

def Round.start (round : Round router) : Spread router where
  buffer := round.payload.setFlag FLAG_BROADCAST
  envelope _ := Router.broadcastMessage round.sender (some round.payload) round.header round.type
  rest _ := none

def Spread.message (s : Spread router) (i : Fin router.workers) : Message :=
  { s.envelope i with data_ := some s.buffer }

/-- The loop of `handle_one` goes on to the next service. -/
def Spread.turn (s : Spread router) (i : Fin router.workers) (fresh : Nat → UInt8) (calls : List Call)
    (error : Option (List UInt8)) : Option (Spread router) :=
  match s.rest i with
  | some (x :: rest) =>
    if x.ok && x.id != (s.envelope i).sender_ then do
      let m ← calls.foldlM (Call.run fresh) (s.message i)
      let (m, _) := callbackDone fresh router error m
      let buffer ← m.data_
      some {
        buffer := buffer
        envelope := Function.update s.envelope i m
        rest := Function.update s.rest i (some rest)
        seen := s.seen ++ [⟨i, x, (s.message i).view⟩] }
    else some { s with rest := Function.update s.rest i (some rest) }
  | _ => none

def Round.system (round : Round router) : System (Spread router) (Move router) where
  start s := s = round.start
  step s a s' :=
    match a with
    | .begins i =>
      s.rest i = none ∧ (s.message i).broadcast = true ∧
        s' = { s with rest := Function.update s.rest i (some (round.services i)) }
    | .turn i fresh calls error => s.turn i fresh calls error = some s'

/-! ## Isolation -/

/-- The services that a worker has not come to. -/
def Spread.remaining (s : Spread router) (round : Round router) (i : Fin router.workers) :
    List Service :=
  (s.rest i).getD (round.services i)

/-- How often a service was handed the message. -/
def Spread.times (s : Spread router) (i : Fin router.workers) (x : Service) : Nat :=
  s.seen.countP fun e => e.worker = i ∧ e.service = x

structure Isolated (round : Round router) (s : Spread router) : Prop where
  /-- a service that the broadcast is for gets it once, when its worker comes to it -/
  once : ∀ i, ∀ x ∈ round.services i, Eligible round.sender x →
    s.times i x = if x ∈ s.remaining round i then 0 else 1
  views : ∀ e ∈ s.seen, e.service.id ≠ round.sender → e.view = round.view

/-- The broadcast is for this service of the worker, which has not come to it. -/
def Spread.Waits (s : Spread router) (round : Round router) (i : Fin router.workers) (x : Service) :
    Prop :=
  x ∈ s.remaining round i ∧ Eligible round.sender x

/-- Where services are still to see the payload, a handler leaves it as it is, and the rest of the
message where they are on its own worker. -/
def Undisturbed (round : Round router) (s : Spread router) : Move router → Prop
  | .begins _ => True
  | .turn i fresh calls _ => ∀ x rest, s.rest i = some (x :: rest) → x.ok = true →
    x.id ≠ (s.envelope i).sender_ →
    let waits := ∃ y ∈ rest, Eligible round.sender y
    (waits ∨ ∃ j y, j ≠ i ∧ s.Waits round j y) →
      ∃ m, calls.foldlM (Call.run fresh) (s.message i) = some m ∧ m.bytes = (s.message i).bytes ∧
        (waits → m.header = (s.message i).header ∧ m.sender_ = (s.message i).sender_ ∧
          m.type_ = (s.message i).type_)

/-! ## Turns -/

variable {round : Round router} {s s' : Spread router} {i j : Fin router.workers} {x y : Service}
  {fresh : Nat → UInt8} {calls : List Call} {error : Option (List UInt8)}

/-- After the callback the session alone may differ. -/
theorem callbackDone_kept (fresh : Nat → UInt8) (router : Router) (error : Option (List UInt8))
    (m : Message) :
    let m' := (callbackDone fresh router error m).1
    m'.header = m.header ∧ m'.sender_ = m.sender_ ∧ m'.type_ = m.type_ ∧ m'.data_ = m.data_ := by
  unfold callbackDone
  split
  · exact ⟨rfl, rfl, rfl, rfl⟩
  · dsimp only
    split <;> exact ⟨rfl, rfl, rfl, rfl⟩

/-- What a turn can be: a dispatch, or the next service is passed over. -/
inductive Turned (s : Spread router) (i : Fin router.workers) (fresh : Nat → UInt8)
    (calls : List Call) : Spread router → Prop
  | dispatched {x rest m m' buffer} : s.rest i = some (x :: rest) → x.ok = true →
      x.id ≠ (s.envelope i).sender_ → calls.foldlM (Call.run fresh) (s.message i) = some m →
      m'.header = m.header → m'.sender_ = m.sender_ → m'.type_ = m.type_ → m.data_ = some buffer →
      Turned s i fresh calls {
        buffer := buffer
        envelope := Function.update s.envelope i m'
        rest := Function.update s.rest i (some rest)
        seen := s.seen ++ [⟨i, x, (s.message i).view⟩] }
  | passed {x rest} : s.rest i = some (x :: rest) →
      ¬(x.ok = true ∧ x.id ≠ (s.envelope i).sender_) →
      Turned s i fresh calls { s with rest := Function.update s.rest i (some rest) }

theorem turn_cases (h : s.turn i fresh calls error = some s') : Turned s i fresh calls s' := by
  unfold Spread.turn at h
  split at h
  next x rest hrest =>
    split at h
    next htest =>
      obtain ⟨m, hrun, h⟩ := Option.bind_eq_some_iff.mp h
      obtain ⟨hheader, hsender, htype, hdata⟩ :=
        callbackDone_kept fresh router error m
      obtain ⟨buffer, hbuffer, h⟩ := Option.bind_eq_some_iff.mp h
      obtain rfl := Option.some.inj h
      rw [Bool.and_eq_true, bne_iff_ne] at htest
      exact .dispatched hrest htest.1 htest.2 hrun hheader hsender htype (hdata.symm.trans hbuffer)
    next htest =>
      obtain rfl := Option.some.inj h
      rw [Bool.and_eq_true, bne_iff_ne] at htest
      exact .passed hrest htest
  · cases h

theorem remaining_update {rest : List Service} (h : s'.rest = Function.update s.rest i (some rest)) :
    s'.remaining round j = if j = i then rest else s.remaining round j := by
  unfold Spread.remaining
  rw [h]
  by_cases hj : j = i
  · rw [hj, Function.update_self, if_pos rfl]
    rfl
  · rw [Function.update_of_ne hj, if_neg hj]

theorem remaining_some {rest : List Service} (h : s.rest i = some rest) :
    s.remaining round i = rest := by
  unfold Spread.remaining
  rw [h]
  rfl

/-! ## The mark stays -/

theorem checkSpace_flag {b b' : Buffer} {need : Nat} (h : b.checkSpace fresh need = some b') :
    b'.flag_ = b.flag_ := by
  obtain ⟨-, rfl⟩ | ⟨-, -, h⟩ | ⟨-, -, h⟩ := Buffer.checkSpace_some h
  · rfl
  · obtain ⟨heap, -, -, rfl⟩ := Buffer.grow_some h
    rfl
  · obtain ⟨-, -, hflag, -⟩ := Buffer.compact_some h
    exact hflag

theorem writeBack_flag {b b' : Buffer} {data : List UInt8} (h : b.writeBack fresh data = some b') :
    b'.flag_ = b.flag_ := by
  obtain ⟨-, rfl⟩ | ⟨b₁, b₂, -, hspace, hcopy, rfl⟩ := Buffer.writeBack_some h
  · rfl
  · exact (Buffer.memcpy_some hcopy).2.flag.trans (checkSpace_flag hspace)

theorem writeFront_flag {b : Buffer} {r : Bool × Buffer} {data : List UInt8}
    (h : b.writeFront data = some r) : r.2.flag_ = b.flag_ := by
  obtain ⟨ok, b'⟩ := r
  obtain ⟨-, rfl⟩ | ⟨-, -, hcopy⟩ := Buffer.writeFront_some h
  · rfl
  · exact (Buffer.memcpy_some hcopy).2.flag

theorem seek_flag (b : Buffer) (offset : Int) (origin : SeekOrigin) :
    (b.seek offset origin).flag_ = b.flag_ := by
  cases origin <;> rfl

theorem bufferUnpackOne_flag (depth : Nat) (b : Buffer) :
    (Serialize.bufferUnpackOne depth b).2.flag_ = b.flag_ := by
  unfold Serialize.bufferUnpackOne
  split
  · rfl
  · exact seek_flag b _ _
  · rfl

theorem onBuffer_broadcast {m m' : Message} {f : Buffer → Option Buffer}
    (hf : ∀ b b', f b = some b' → b'.flag_ = b.flag_) (h : m.onBuffer f = some m') :
    m'.broadcast = m.broadcast := by
  obtain ⟨b, hdata, h⟩ := Option.bind_eq_some_iff.mp h
  obtain ⟨b', hb', h⟩ := Option.bind_eq_some_iff.mp h
  obtain rfl := Option.some.inj h
  unfold Message.broadcast
  rw [hdata]
  unfold Buffer.hasFlag
  dsimp only
  rw [hf b b' hb']

theorem run_broadcast {m m' : Message} {call : Call} (h : call.run fresh m = some m') :
    m'.broadcast = m.broadcast := by
  cases call with
  | seek pos origin =>
    exact onBuffer_broadcast (fun b b' hb => Option.some.inj hb ▸ seek_flag b _ _) h
  | writeBack data => exact onBuffer_broadcast (fun _ _ => writeBack_flag) h
  | writeFront data =>
    refine onBuffer_broadcast (fun b b' hb => ?_) h
    obtain ⟨r, hr, rfl⟩ := Option.map_eq_some_iff.mp hb
    exact writeFront_flag hr
  | offsetWritepos offset =>
    refine onBuffer_broadcast (fun b b' hb => ?_) h
    obtain rfl := Option.some.inj hb
    rfl
  | redirect r =>
    obtain rfl := Option.some.inj h
    unfold Message.broadcast
    rw [show (m.redirect r).data_ = m.data_ from setHeader_data m r.header]
  | resend sender receiver header sessionid type =>
    obtain rfl := Option.some.inj h
    unfold Message.broadcast
    rw [show (m.resend sender receiver header sessionid type).data_ = m.data_ from
      setHeader_data m header]
  | unpackOne =>
    exact onBuffer_broadcast (fun b b' hb => Option.some.inj hb ▸ bufferUnpackOne_flag 0 b) h

theorem runs_broadcast {m m' : Message} (h : calls.foldlM (Call.run fresh) m = some m') :
    m'.broadcast = m.broadcast := by
  induction calls generalizing m with
  | nil => exact congrArg Message.broadcast (Option.some.inj h).symm
  | cons call calls ih =>
    obtain ⟨m₁, hcall, h⟩ := Option.bind_eq_some_iff.mp h
    exact (ih h).trans (run_broadcast hcall)

/-- No handler can keep a worker from the loop over its services. -/
theorem broadcast_of_reach (h : round.system.Reach s) : ∀ i, (s.message i).broadcast = true := by
  refine System.Reach.invariant (fun s hs => ?_) (fun s a s' _ hs hstep => ?_) h
  · rintro i
    rw [hs]
    exact hasFlag_setFlag round.payload (by decide)
  · cases a with
    | begins i =>
      obtain ⟨-, -, rfl⟩ := hstep
      exact hs
    | turn i fresh calls error =>
      cases turn_cases hstep with
      | @dispatched x rest m m' buffer hrest hok hsender hrun hheader hsender' htype hdata =>
        intro j
        have hkept := (runs_broadcast hrun).trans (hs i)
        unfold Message.broadcast at hkept
        rw [hdata] at hkept
        exact hkept
      | passed hrest hpassed => exact hs

/-! ## Undisturbed runs -/

structure Kept (round : Round router) (s : Spread router) : Prop extends Isolated round s where
  suffix : ∀ i, s.remaining round i <:+ round.services i
  envelope : ∀ i x, s.Waits round i x → (s.envelope i).header = round.header ∧
    (s.envelope i).sender_ = round.sender ∧ (s.envelope i).type_ = round.type
  bytes : ∀ i x, s.Waits round i x → s.buffer.readable = round.payload.readable

theorem setHeader_header (m : Message) (header : List UInt8) :
    (m.setHeader header).header = if header.length ≠ 0 then header else m.header := by
  unfold Message.setHeader
  split <;> rfl

theorem kept_start (round : Round router) : Kept round round.start := by
  refine ⟨⟨fun i x hx _ => ?_, fun e he => absurd he List.not_mem_nil⟩, fun i => List.suffix_rfl,
    fun i x _ => ⟨?_, rfl, rfl⟩, fun i x _ => rfl⟩
  · exact (if_pos hx).symm
  · refine (setHeader_header _ _).trans ?_
    split
    · rfl
    next hempty =>
      rw [not_not] at hempty
      exact (List.eq_nil_of_length_eq_zero hempty).symm

/-- A worker that begins has come to no service yet. -/
theorem remaining_begins (hrest : s.rest i = none)
    (hrest' : s'.rest = Function.update s.rest i (some (round.services i))) :
    s'.remaining round j = s.remaining round j := by
  rw [remaining_update hrest']
  split
  next hj =>
    rw [hj]
    unfold Spread.remaining
    rw [hrest]
    rfl
  · rfl

theorem Kept.begins (h : Kept round s) (hrest : s.rest i = none) :
    Kept round { s with rest := Function.update s.rest i (some (round.services i)) } := by
  have hsame : ∀ j, ({ s with rest := Function.update s.rest i (some (round.services i)) } :
      Spread router).remaining round j = s.remaining round j :=
    fun _ => remaining_begins hrest rfl
  refine ⟨⟨fun j x hx he => ?_, h.views⟩, fun j => ?_, fun j x hw => ?_, fun j x hw => ?_⟩
  · rw [hsame]
    exact h.once j x hx he
  · rw [hsame]
    exact h.suffix j
  · exact h.envelope j x ⟨hsame j ▸ hw.1, hw.2⟩
  · exact h.bytes j x ⟨hsame j ▸ hw.1, hw.2⟩

/-- Only the service that the loop has come to leaves those that remain. -/
theorem waits_update {rest : List Service} (hrest : s.rest i = some (x :: rest))
    (hrest' : s'.rest = Function.update s.rest i (some rest)) (h : s'.Waits round j y) :
    s.Waits round j y ∧ (j = i → y ∈ rest) := by
  obtain ⟨hmem, heligible⟩ := h
  rw [remaining_update hrest'] at hmem
  split at hmem
  next hj =>
    refine ⟨⟨?_, heligible⟩, fun _ => hmem⟩
    rw [hj, remaining_some hrest]
    exact List.mem_cons_of_mem x hmem
  next hj => exact ⟨⟨hmem, heligible⟩, fun hji => absurd hji hj⟩

theorem suffix_update {rest : List Service} (h : ∀ j, s.remaining round j <:+ round.services j)
    (hrest : s.rest i = some (x :: rest)) (hrest' : s'.rest = Function.update s.rest i (some rest))
    (j : Fin router.workers) : s'.remaining round j <:+ round.services j := by
  rw [remaining_update hrest']
  split
  next hj =>
    have hsuffix := h i
    rw [remaining_some hrest] at hsuffix
    rw [hj]
    exact (List.suffix_cons x rest).trans hsuffix
  · exact h j

/-- The service that the loop has come to is not among those that remain. -/
theorem not_mem_rest {rest : List Service} (h : s.remaining round i <:+ round.services i)
    (hrest : s.rest i = some (x :: rest)) : x ∉ rest := by
  intro hx
  rw [remaining_some hrest] at h
  obtain ⟨hne, -⟩ := List.pairwise_cons.mp ((round.ids i).sublist h.sublist)
  exact hne x hx rfl

theorem mem_remaining_update {rest : List Service} (hrest : s.rest i = some (x :: rest))
    (hrest' : s'.rest = Function.update s.rest i (some rest)) (hne : ¬(j = i ∧ y = x)) :
    y ∈ s'.remaining round j ↔ y ∈ s.remaining round j := by
  rw [remaining_update hrest']
  split
  next hj =>
    rw [hj, remaining_some hrest, List.mem_cons]
    exact ⟨Or.inr, fun h => h.resolve_left fun hy => hne ⟨hj, hy⟩⟩
  · exact Iff.rfl

theorem times_append {e : Seen router} (h : s'.seen = s.seen ++ [e]) :
    s'.times j y = s.times j y + if e.worker = j ∧ e.service = y then 1 else 0 := by
  unfold Spread.times
  rw [h, List.countP_append, List.countP_singleton]
  simp only [decide_eq_true_eq]

/-- The services that the broadcast is for are not passed over. -/
theorem Kept.passed {rest : List Service} (h : Kept round s) (hrest : s.rest i = some (x :: rest))
    (hpassed : ¬(x.ok = true ∧ x.id ≠ (s.envelope i).sender_)) :
    Kept round { s with rest := Function.update s.rest i (some rest) } := by
  have hx : ¬Eligible round.sender x := by
    intro hx
    have hwaits : s.Waits round i x := ⟨remaining_some hrest ▸ List.mem_cons_self, hx⟩
    rw [(h.envelope i x hwaits).2.1] at hpassed
    exact hpassed hx
  refine ⟨⟨fun j y hy he => ?_, h.views⟩, suffix_update h.suffix hrest rfl, fun j y hw => ?_,
    fun j y hw => ?_⟩
  · rw [if_congr (mem_remaining_update hrest rfl fun hxy => hx (hxy.2 ▸ he)) rfl rfl]
    exact h.once j y hy he
  · exact h.envelope j y (waits_update hrest rfl hw).1
  · exact h.bytes j y (waits_update hrest rfl hw).1

/-- What the services that wait are still to see, after a handler that disturbs nobody. -/
theorem Undisturbed.keeps {rest : List Service} {m : Message} {buffer : Buffer}
    (h : Undisturbed round s (.turn i fresh calls error)) (hrest : s.rest i = some (x :: rest))
    (hok : x.ok = true) (hsender : x.id ≠ (s.envelope i).sender_)
    (hrun : calls.foldlM (Call.run fresh) (s.message i) = some m) (hdata : m.data_ = some buffer)
    (hw : s.Waits round j y) (hy : j = i → y ∈ rest) :
    buffer.readable = s.buffer.readable ∧ (j = i → m.header = (s.envelope i).header ∧
      m.sender_ = (s.envelope i).sender_ ∧ m.type_ = (s.envelope i).type_) := by
  obtain ⟨m₁, hrun₁, hbytes, hrest₁⟩ := h x rest hrest hok hsender (by
    by_cases hj : j = i
    · exact .inl ⟨y, hy hj, hw.2⟩
    · exact .inr ⟨j, y, hj, hw⟩)
  obtain rfl := Option.some.inj (hrun₁.symm.trans hrun)
  have hreadable : m₁.bytes = buffer.readable := by
    unfold Message.bytes
    rw [hdata]
  exact ⟨hreadable.symm.trans hbytes, fun hj => hrest₁ ⟨y, hy hj, hw.2⟩⟩

theorem Kept.dispatched {rest : List Service} {m m' : Message} {buffer : Buffer} (h : Kept round s)
    (hundisturbed : Undisturbed round s (.turn i fresh calls error))
    (hrest : s.rest i = some (x :: rest)) (hok : x.ok = true) (hsender : x.id ≠ (s.envelope i).sender_)
    (hrun : calls.foldlM (Call.run fresh) (s.message i) = some m) (hheader' : m'.header = m.header)
    (hsender' : m'.sender_ = m.sender_) (htype' : m'.type_ = m.type_) (hdata : m.data_ = some buffer) :
    Kept round {
      buffer := buffer
      envelope := Function.update s.envelope i m'
      rest := Function.update s.rest i (some rest)
      seen := s.seen ++ [⟨i, x, (s.message i).view⟩] } := by
  have hx : x ∈ s.remaining round i := remaining_some hrest ▸ List.mem_cons_self
  have hkeeps : ∀ j y, s.Waits round j y → (j = i → y ∈ rest) → _ := fun j y =>
    hundisturbed.keeps hrest hok hsender hrun hdata
  refine ⟨⟨fun j y hy he => ?_, fun e he hid => ?_⟩, suffix_update h.suffix hrest rfl,
    fun j y hw => ?_, fun j y hw => ?_⟩
  · rw [times_append rfl, h.once j y hy he]
    by_cases hxy : j = i ∧ y = x
    · obtain ⟨rfl, rfl⟩ := hxy
      rw [if_pos hx, if_pos ⟨rfl, rfl⟩, remaining_update rfl, if_pos rfl,
        if_neg (not_mem_rest (h.suffix j) hrest)]
    · rw [if_neg fun hij : i = j ∧ x = y => hxy ⟨hij.1.symm, hij.2.symm⟩, Nat.add_zero]
      exact (if_congr (mem_remaining_update hrest rfl hxy) rfl rfl).symm
  · rcases List.mem_append.mp he with he | he
    · exact h.views e he hid
    · rw [List.mem_singleton.mp he] at hid ⊢
      have hwaits : s.Waits round i x := ⟨hx, hok, hid⟩
      obtain ⟨h1, h2, h3⟩ := h.envelope i x hwaits
      have h4 := h.bytes i x hwaits
      show View.mk s.buffer.readable (s.envelope i).header (s.envelope i).sender_
        (s.envelope i).type_ = round.view
      rw [h1, h2, h3, h4]
      rfl
  · obtain ⟨hw', hy⟩ := waits_update hrest rfl hw
    obtain ⟨h1, h2, h3⟩ := h.envelope j y hw'
    by_cases hj : j = i
    · subst hj
      obtain ⟨g1, g2, g3⟩ := (hkeeps j y hw' hy).2 rfl
      dsimp only
      rw [Function.update_self, hheader', hsender', htype', g1, g2, g3]
      exact ⟨h1, h2, h3⟩
    · dsimp only
      rw [Function.update_of_ne hj]
      exact ⟨h1, h2, h3⟩
  · obtain ⟨hw', hy⟩ := waits_update hrest rfl hw
    exact (hkeeps j y hw' hy).1.trans (h.bytes j y hw')

theorem kept_of_reach (h : (round.system.restrict (Undisturbed round)).Reach s) : Kept round s := by
  refine System.Reach.invariant (fun s hs => ?_) (fun s a s' _ hs hstep => ?_) h
  · exact hs ▸ kept_start round
  · obtain ⟨hundisturbed, hstep⟩ := hstep
    cases a with
    | begins i =>
      obtain ⟨hrest, -, rfl⟩ := hstep
      exact hs.begins hrest
    | turn i fresh calls error =>
      cases turn_cases hstep with
      | dispatched hrest hok hsender hrun hheader hsender' htype hdata =>
        exact hs.dispatched hundisturbed hrest hok hsender hrun hheader hsender' htype hdata
      | passed hrest hpassed => exact hs.passed hrest hpassed

/-- Every receiver of a broadcast gets it once, as it was broadcast, as long as no handler changes what
another one is still to see. -/
theorem isolated_of_undisturbed (round : Round router)
    (h : (round.system.restrict (Undisturbed round)).Reach s) : Isolated round s :=
  (kept_of_reach h).toIsolated

/-! ## Two services -/

/-- Service 1 broadcasts two bytes to the services 2 and 3 of the only worker. -/
def twoServices : Round oneWorker where
  sender := 0x01000001
  payload := { Buffer.blank BUFFER_HEAD_RESERVED with writepos_ := BUFFER_HEAD_RESERVED + 2 }
  header := []
  type := PTYPE_SYSTEM
  services _ := [⟨0x01000002, 0, true, secondId_ne⟩, ⟨0x01000003, 1, true, by decide⟩]
  ids _ := by decide

/-- The last service of the only worker disturbs nobody. -/
theorem undisturbed_last (round : Round router) (hone : ∀ j, j = i) (hlast : s.rest i = some [x]) :
    Undisturbed round s (.turn i fresh calls error) := by
  intro x' rest hrest _ _ waits hwaits
  obtain ⟨-, rfl⟩ := List.cons.inj (Option.some.inj (hlast.symm.trans hrest))
  rcases hwaits with ⟨y, hy, -⟩ | ⟨j, y, hj, -⟩
  · cases hy
  · exact absurd (hone j) hj

/-- The first service looks a byte ahead, goes back and redirects the message; the other one reads all
of it. -/
theorem isolated_twoServices : ∃ s, s.seen.length = 2 ∧ s.buffer.size = 0 ∧ Isolated twoServices s := by
  have hone : ∀ j, j = onlyWorker := fun j => Subsingleton.elim (α := Fin 1) j onlyWorker
  have h₀ : (twoServices.system.restrict (Undisturbed twoServices)).Reach twoServices.start :=
    System.Reach.start rfl
  have h₁ := h₀.step (a := Move.begins onlyWorker) ⟨trivial, rfl, by decide, rfl⟩
  have h₂ := h₁.step (a := Move.turn onlyWorker (fun _ => 0)
    [.seek 1 .Current, .seek (-1) .Current, .redirect ⟨[], 7, PTYPE_SYSTEM⟩] none)
    ⟨fun _ _ _ _ _ _ => ⟨_, rfl, by decide, fun _ => ⟨rfl, rfl, rfl⟩⟩, rfl⟩
  have h₃ := h₂.step (a := Move.turn onlyWorker (fun _ => 0) [.seek 2 .Current] none)
    ⟨undisturbed_last _ hone rfl, rfl⟩
  exact ⟨_, rfl, by decide, isolated_of_undisturbed twoServices h₃⟩

/-- The first service seeks one byte further, and the other one sees one byte. -/
theorem not_isolated : ¬∀ (router : Router) (round : Round router) (s : Spread router),
    round.system.Reach s → Isolated round s := by
  intro h
  have h₀ : twoServices.system.Reach twoServices.start := System.Reach.start rfl
  have h₁ := h₀.step (a := Move.begins onlyWorker) ⟨rfl, by decide, rfl⟩
  have h₂ := h₁.step (a := Move.turn onlyWorker (fun _ => 0) [.seek 1 .Current] none) rfl
  have h₃ := h₂.step (a := Move.turn onlyWorker (fun _ => 0) [] none) rfl
  have hview := (h _ _ _ h₃).views ⟨onlyWorker, ⟨0x01000003, 1, true, by decide⟩,
    ⟨[0], [], 0x01000001, PTYPE_SYSTEM⟩⟩ (.tail _ (.head _)) (by decide)
  exact absurd hview (by decide)

end HappyServer.Server
