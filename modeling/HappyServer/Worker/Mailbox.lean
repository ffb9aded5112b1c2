import HappyServer.Lib.Fair
import HappyServer.Lib.Runs
import Mathlib.Data.List.Basic

/-!
# A worker's mailbox (`core/worker.cpp`)

Any number of threads call `worker::send`; the worker's thread takes tasks from
`queue_` and handles `mq_` in the drain task that a send posts.  One step each: a
`push_back`, the enqueueing that follows when it returned 1, a task posted by
another call, and an advance of the worker's thread (`Action`).

* `handleOne` is `handle_one`: which services `handle_message` is called for, and the
  cached pointer `ser`.  What a handler does to the mailbox are sends by the worker's own thread.
* `pushed` and `handled` are not in the source: what was accepted, what was handled and for
  whom, in order, with the services live at the time of the drain.
-/

namespace HappyServer.Worker

/-- A service object: `key` is its identity.  `uuid` gives no id 0. -/
structure Service where
  id : UInt32
  key : Nat
  ok : Bool
  id_ne : id ≠ 0
deriving DecidableEq

/-- The receiver of a broadcast is 0. -/
inductive Message (δ : Type) where
  | direct (sender receiver : UInt32) (data : δ)
  | broadcast (sender : UInt32) (data : δ)
deriving DecidableEq

def Message.receiver {δ : Type} : Message δ → UInt32
  | .direct _ receiver _ => receiver
  | .broadcast _ _ => 0

/-- What `queue_` holds; `other` tasks leave `services_` alone. -/
inductive Task where
  | drain
  | addService (s : Service)
  | removeService (serviceid : UInt32)
  | other
deriving DecidableEq

inductive Thread where
  | worker
  | sender (n : Nat)
deriving DecidableEq

/-- Where the worker's thread is. -/
inductive Pc (δ : Type) where
  /-- between two tasks -/
  | idle
  | task (t : Task)
  /-- the drain task begins, at `mq_.size() != 0` -/
  | drain
  /-- that was so; `mq_.swap(swapmq_)` is next -/
  | swap
  /-- in the loop over `swapmq_`; `live` were the services at the swap -/
  | handle (live : List Service) (ser : Option Service) (rest : List (Message δ))

structure Handled (δ : Type) where
  msg : Message δ
  live : List Service
  /-- the services `handle_message` was called for -/
  dispatched : List Service

structure State (δ : Type) where
  mq : List (Message δ) := []
  queue : List Task := []
  /-- threads whose `push_back` returned 1 and that have not enqueued yet -/
  flight : List Thread := []
  pc : Pc δ := .idle
  services : List Service := []
  pushed : List (Message δ) := []
  handled : List (Handled δ) := []

inductive Action (δ : Type) where
  | push (t : Thread) (msg : Message δ)
  | enqueue (t : Thread)
  | post (t : Task)
  | advance

variable {δ : Type}

def findService (services : List Service) (serviceid : UInt32) : Option Service :=
  services.find? fun s => s.id = serviceid

/-- `ser` after the call, and for which services `handle_message` was called. -/
def handleOne (services : List Service) (ser : Option Service) :
    Message δ → Option Service × List Service
  | .broadcast sender _ => (ser, services.filter fun s => s.ok && s.id != sender)
  | .direct _ receiver _ =>
    let ser :=
      match ser with
      | none => findService services receiver
      | some s => if s.id ≠ receiver then findService services receiver else some s
    (ser, ser.toList)

/-- What a task does to `services_`. -/
def Task.run : Task → List Service → List Service
  | .addService s, services =>
    if (findService services s.id).isSome then services else services ++ [s]
  | .removeService serviceid, services => services.filter fun s => s.id ≠ serviceid
  | _, services => services

/-- Handlers and tasks of the worker's thread send, too. -/
def Pc.sends : Pc δ → Bool
  | .task _ => true
  | .handle _ _ _ => true
  | _ => false

def advance (s : State δ) : Option (State δ) :=
  match s.pc with
  | .idle =>
    match s.queue with
    | [] => none
    | .drain :: queue => some { s with queue := queue, pc := .drain }
    | t :: queue => some { s with queue := queue, pc := .task t }
  | .task t => some { s with services := t.run s.services, pc := .idle }
  | .drain => some { s with pc := if s.mq.length ≠ 0 then .swap else .idle }
  | .swap => some { s with mq := [], pc := .handle s.services none s.mq }
  | .handle _ _ [] => some { s with pc := .idle }
  | .handle live ser (msg :: rest) =>
    let (ser, dispatched) := handleOne s.services ser msg
    some { s with pc := .handle live ser rest, handled := s.handled ++ [⟨msg, live, dispatched⟩] }

def step (s : State δ) : Action δ → Option (State δ)
  | .push t msg =>
    if t ∈ s.flight ∨ (t = .worker ∧ !s.pc.sends) then none
    else
      let mq := s.mq ++ [msg]
      some { s with
        mq := mq
        flight := if mq.length = 1 then t :: s.flight else s.flight
        pushed := s.pushed ++ [msg] }
  | .enqueue t =>
    if t ∈ s.flight then
      some { s with queue := s.queue ++ [.drain], flight := s.flight.erase t }
    else none
  | .post t => if t = .drain then none else some { s with queue := s.queue ++ [t] }
  | .advance => if .worker ∈ s.flight then none else advance s

/-- The states any interleaving reaches. -/
inductive Reach : State δ → Prop
  | init : Reach {}
  | step {s s'} (a : Action δ) : Reach s → step s a = some s' → Reach s'

/-! ## Invariants -/

/-- What is left of the list being handled. -/
def State.rest (s : State δ) : List (Message δ) :=
  match s.pc with
  | .handle _ _ rest => rest
  | _ => []

/-- The worker is between taking a drain task and its swap. -/
def State.draining (s : State δ) : Prop :=
  match s.pc with
  | .drain => True
  | .swap => True
  | _ => False

structure Inv (s : State δ) : Prop where
  order : s.pushed = s.handled.map Handled.msg ++ s.rest ++ s.mq
  wake : s.mq ≠ [] → .drain ∈ s.queue ∨ s.flight ≠ [] ∨ s.draining
  swap : s.pc = .swap → s.mq ≠ []
  ids : s.services.Pairwise fun a b => a.id ≠ b.id
  live : ∀ live ser rest, s.pc = .handle live ser rest →
    live = s.services ∧ ∀ x, ser = some x → x ∈ s.services
  sent : ∀ h ∈ s.handled, ∀ x ∈ h.live, x.id = h.msg.receiver → h.dispatched = [x]

theorem findService_eq_some {services : List Service} {serviceid : UInt32} {x : Service}
    (h : findService services serviceid = some x) : x ∈ services ∧ x.id = serviceid :=
  ⟨List.mem_of_find?_eq_some h, by simpa using List.find?_some h⟩

theorem findService_of_mem {services : List Service} {x : Service}
    (hids : services.Pairwise fun a b => a.id ≠ b.id) (hx : x ∈ services) :
    findService services x.id = some x := by
  induction services with
  | nil => simp at hx
  | cons y services ih =>
    obtain ⟨hy, hrest⟩ := List.pairwise_cons.mp hids
    unfold findService
    rcases List.mem_cons.mp hx with rfl | hx
    · rw [List.find?_cons_of_pos (by simp)]
    · rw [List.find?_cons_of_neg (by simpa using hy x hx)]
      exact ih hrest hx

/-- The cached pointer is as good as a search. -/
theorem handleOne_direct {services : List Service} {ser : Option Service} {msg : Message δ}
    {x : Service} (hids : services.Pairwise fun a b => a.id ≠ b.id)
    (hser : ∀ y, ser = some y → y ∈ services) (hx : x ∈ services) (hid : x.id = msg.receiver) :
    (handleOne services ser msg).2 = [x] := by
  cases msg with
  | broadcast sender data => exact absurd hid x.id_ne
  | direct sender receiver data =>
    have hfind : findService services receiver = some x := by
      rw [← show x.id = receiver from hid]
      exact findService_of_mem hids hx
    unfold handleOne
    cases ser with
    | none => simp only [hfind, Option.toList_some]
    | some y =>
      by_cases hy : y.id = receiver
      · have hfind' := findService_of_mem hids (hser y rfl)
        rw [hy, hfind, Option.some.injEq] at hfind'
        simp only [hy, ne_eq, not_true_eq_false, if_false, Option.toList_some, hfind']
      · simp only [hy, ne_eq, not_false_eq_true, if_true, hfind, Option.toList_some]

theorem handleOne_ser {services : List Service} {ser : Option Service} (msg : Message δ)
    (hser : ∀ y, ser = some y → y ∈ services) :
    ∀ y, (handleOne services ser msg).1 = some y → y ∈ services := by
  intro y hy
  cases msg with
  | broadcast sender data => exact hser y hy
  | direct sender receiver data =>
    unfold handleOne at hy
    cases ser with
    | none => exact (findService_eq_some hy).1
    | some z =>
      simp only at hy
      split at hy
      · exact (findService_eq_some hy).1
      · rw [Option.some.injEq] at hy
        exact hy ▸ hser z rfl

theorem ids_run (t : Task) {services : List Service}
    (h : services.Pairwise fun a b => a.id ≠ b.id) :
    (t.run services).Pairwise fun a b => a.id ≠ b.id := by
  cases t with
  | drain => exact h
  | other => exact h
  | removeService serviceid => exact h.filter _
  | addService s =>
    rw [Task.run]
    split
    · exact h
    next hnone =>
      rw [List.pairwise_append]
      refine ⟨h, List.pairwise_singleton _ _, fun a ha b hb => ?_⟩
      rw [List.mem_singleton.mp hb]
      intro hid
      rw [← hid, findService_of_mem h ha] at hnone
      exact hnone rfl

/-! ## Steps -/

/-- Everything an advance of the worker's thread can be. -/
inductive Advance (s : State δ) : State δ → Prop
  | takeDrain {queue} : s.pc = .idle → s.queue = .drain :: queue →
      Advance s { s with queue := queue, pc := .drain }
  | takeTask {t queue} : s.pc = .idle → s.queue = t :: queue → t ≠ .drain →
      Advance s { s with queue := queue, pc := .task t }
  | finishTask {t} : s.pc = .task t → Advance s { s with services := t.run s.services, pc := .idle }
  | nothing : s.pc = .drain → s.mq = [] → Advance s { s with pc := .idle }
  | check : s.pc = .drain → s.mq ≠ [] → Advance s { s with pc := .swap }
  | swap : s.pc = .swap → Advance s { s with mq := [], pc := .handle s.services none s.mq }
  | finishDrain {live ser} : s.pc = .handle live ser [] → Advance s { s with pc := .idle }
  | handle {live ser msg rest} : s.pc = .handle live ser (msg :: rest) →
      Advance s { s with
        pc := .handle live (handleOne s.services ser msg).1 rest
        handled := s.handled ++ [⟨msg, live, (handleOne s.services ser msg).2⟩] }

theorem advance_cases {s s' : State δ} (h : advance s = some s') : Advance s s' := by
  unfold advance at h
  split at h
  next hpc =>
    split at h
    · simp at h
    next queue hq =>
      rw [Option.some.injEq] at h
      exact h ▸ .takeDrain hpc hq
    next t queue hne hq =>
      rw [Option.some.injEq] at h
      exact h ▸ .takeTask hpc hq hne
  next t hpc =>
    rw [Option.some.injEq] at h
    exact h ▸ .finishTask hpc
  next hpc =>
    rw [Option.some.injEq] at h
    by_cases hmq : s.mq = []
    · have hlen : ¬s.mq.length ≠ 0 := fun h => h (List.length_eq_zero_iff.mpr hmq)
      rw [if_neg hlen] at h
      exact h ▸ .nothing hpc hmq
    · rw [if_pos (mt List.length_eq_zero_iff.mp hmq)] at h
      exact h ▸ .check hpc hmq
  next hpc =>
    rw [Option.some.injEq] at h
    exact h ▸ .swap hpc
  next live ser hpc =>
    rw [Option.some.injEq] at h
    exact h ▸ .finishDrain hpc
  next live ser msg rest hpc =>
    rw [Option.some.injEq] at h
    exact h ▸ .handle hpc

/-- Everything a step can be. -/
inductive Stepped (s : State δ) : Action δ → State δ → Prop
  | push {t msg} : t ∉ s.flight → (t = .worker → s.pc.sends = true) →
      Stepped s (.push t msg) { s with
        mq := s.mq ++ [msg]
        flight := if (s.mq ++ [msg]).length = 1 then t :: s.flight else s.flight
        pushed := s.pushed ++ [msg] }
  | enqueue {t} : t ∈ s.flight → Stepped s (.enqueue t) { s with
      queue := s.queue ++ [.drain], flight := s.flight.erase t }
  | post {t} : t ≠ .drain → Stepped s (.post t) { s with queue := s.queue ++ [t] }
  | advance {s'} : .worker ∉ s.flight → Advance s s' → Stepped s .advance s'

theorem step_cases {s s' : State δ} {a : Action δ} (h : step s a = some s') : Stepped s a s' := by
  cases a with
  | push t msg =>
    rw [step] at h
    split at h
    · simp at h
    next hguard =>
      rw [Option.some.injEq] at h
      obtain ⟨hflight, hworker⟩ := not_or.mp hguard
      exact h ▸ .push hflight fun ht => by simpa [ht] using hworker
  | enqueue t =>
    rw [step] at h
    split at h
    next hflight =>
      rw [Option.some.injEq] at h
      exact h ▸ .enqueue hflight
    · simp at h
  | post t =>
    rw [step] at h
    split at h
    · simp at h
    next hdrain =>
      rw [Option.some.injEq] at h
      exact h ▸ .post hdrain
  | advance =>
    rw [step] at h
    split at h
    · simp at h
    next hflight => exact .advance hflight (advance_cases h)

theorem step_advance {s s' : State δ} (h : step s .advance = some s') : Advance s s' := by
  cases step_cases h with
  | advance _ h => exact h

theorem step_enqueue {s s' : State δ} {t : Thread} (h : step s (.enqueue t) = some s') :
    .drain ∈ s'.queue := by
  cases step_cases h with
  | enqueue _ => exact List.mem_append_right _ (List.mem_singleton_self _)

/-- Nothing was handled and nothing is left to handle. -/
theorem Inv.order_quiet {s s' : State δ} (hs : Inv s) (hrest : s.rest = []) (hrest' : s'.rest = [])
    (hpushed : s'.pushed = s.pushed) (hhandled : s'.handled = s.handled) (hmq : s'.mq = s.mq) :
    s'.pushed = s'.handled.map Handled.msg ++ s'.rest ++ s'.mq := by
  rw [hpushed, hhandled, hmq, hrest', ← hrest]
  exact hs.order

theorem inv_advance {s s' : State δ} (hs : Inv s) (h : Advance s s') : Inv s' := by
  cases h with
  | takeDrain hpc hq =>
    have hrest : s.rest = [] := by rw [State.rest, hpc]
    exact ⟨hs.order_quiet hrest rfl rfl rfl rfl, fun _ => Or.inr (Or.inr trivial), nofun, hs.ids,
      nofun, hs.sent⟩
  | takeTask hpc hq hne =>
    have hrest : s.rest = [] := by rw [State.rest, hpc]
    refine ⟨hs.order_quiet hrest rfl rfl rfl rfl, fun hmq => ?_, nofun, hs.ids, nofun, hs.sent⟩
    rcases hs.wake hmq with hw | hw | hw
    · rw [hq, List.mem_cons] at hw
      exact Or.inl (hw.resolve_left (Ne.symm hne))
    · exact Or.inr (Or.inl hw)
    · rw [State.draining, hpc] at hw
      exact hw.elim
  | @finishTask t hpc =>
    have hrest : s.rest = [] := by rw [State.rest, hpc]
    refine ⟨hs.order_quiet hrest rfl rfl rfl rfl, fun hmq => ?_, nofun, ids_run t hs.ids, nofun,
      hs.sent⟩
    have := hs.wake hmq
    rwa [State.draining, hpc] at this
  | nothing hpc hmq =>
    have hrest : s.rest = [] := by rw [State.rest, hpc]
    exact ⟨hs.order_quiet hrest rfl rfl rfl rfl, fun h => absurd hmq h, nofun, hs.ids, nofun,
      hs.sent⟩
  | check hpc hmq =>
    have hrest : s.rest = [] := by rw [State.rest, hpc]
    exact ⟨hs.order_quiet hrest rfl rfl rfl rfl, fun _ => Or.inr (Or.inr trivial), fun _ => hmq,
      hs.ids, nofun, hs.sent⟩
  | swap hpc =>
    refine ⟨?_, fun h => absurd rfl h, nofun, hs.ids, ?_, hs.sent⟩
    · have := hs.order
      rw [State.rest, hpc, List.append_nil] at this
      simp only [State.rest, List.append_nil, this]
    · intro live ser rest h
      simp only [Pc.handle.injEq] at h
      obtain ⟨rfl, rfl, -⟩ := h
      exact ⟨rfl, fun x hx => by cases hx⟩
  | finishDrain hpc =>
    have hrest : s.rest = [] := by rw [State.rest, hpc]
    refine ⟨hs.order_quiet hrest rfl rfl rfl rfl, fun hmq => ?_, nofun, hs.ids, nofun, hs.sent⟩
    have := hs.wake hmq
    rwa [State.draining, hpc] at this
  | @handle live ser msg rest hpc =>
    obtain ⟨rfl, hser⟩ := hs.live _ _ _ hpc
    refine ⟨?_, fun hmq => ?_, nofun, hs.ids, ?_, ?_⟩
    · have := hs.order
      rw [State.rest, hpc] at this
      simp only [State.rest, this, List.map_append, List.map_singleton, List.append_assoc,
        List.cons_append, List.nil_append]
    · have := hs.wake hmq
      rwa [State.draining, hpc] at this
    · intro live ser' rest' h
      simp only [Pc.handle.injEq] at h
      obtain ⟨rfl, rfl, -⟩ := h
      exact ⟨rfl, handleOne_ser msg hser⟩
    · intro h hh x hx hid
      rcases List.mem_append.mp hh with hh | hh
      · exact hs.sent h hh x hx hid
      · rw [List.mem_singleton.mp hh] at hx hid ⊢
        exact handleOne_direct hs.ids hser hx hid

theorem inv_step {s s' : State δ} (a : Action δ) (hs : Inv s) (h : step s a = some s') : Inv s' := by
  cases step_cases h with
  | @push t msg _ _ =>
    refine ⟨?_, fun _ => ?_, fun _ => List.append_ne_nil_of_right_ne_nil _ (List.cons_ne_nil _ _),
      hs.ids, hs.live, hs.sent⟩
    · show s.pushed ++ [msg] = s.handled.map Handled.msg ++ s.rest ++ (s.mq ++ [msg])
      rw [hs.order]
      simp only [List.append_assoc]
    · by_cases hmq : s.mq = []
      · -- `push_back` returned 1
        exact Or.inr (Or.inl (by simp [hmq]))
      · have hlen : (s.mq ++ [msg]).length ≠ 1 := by
          rw [List.length_append, List.length_singleton]
          have := mt List.length_eq_zero_iff.mp hmq
          omega
        rw [if_neg hlen]
        exact hs.wake hmq
  | enqueue _ =>
    exact ⟨hs.order, fun _ => Or.inl (step_enqueue h), hs.swap, hs.ids, hs.live, hs.sent⟩
  | post _ =>
    refine ⟨hs.order, fun hmq => ?_, hs.swap, hs.ids, hs.live, hs.sent⟩
    exact (hs.wake hmq).imp_left (List.mem_append_left _)
  | advance _ h => exact inv_advance hs h

theorem Reach.inv {s : State δ} (h : Reach s) : Inv s := by
  induction h with
  | init =>
    exact ⟨rfl, fun h => absurd rfl h, nofun, List.Pairwise.nil,
      nofun, fun _ h => by simp at h⟩
  | step a _ hstep ih => exact inv_step a ih hstep

theorem reach_foldlM {s s' : State δ} (h : Reach s) (actions : List (Action δ))
    (hrun : actions.foldlM step s = some s') : Reach s' :=
  System.foldlM_invariant (fun h hstep => .step _ h hstep) h actions hrun

end HappyServer.Worker
