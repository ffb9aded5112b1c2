import HappyServer.Services.Station

/-!
# The server while it starts, runs and stops (`core/server.cpp`, `core/router.cpp`, `happy.cpp`)

The main thread makes the workers, asks for the configured services, waits for their number and
calls `run`.  Any other threads `ι` call `router::new_service` and `server::stop`; the tasks of
`remove_service`, `worker::stop`, `send` and `update` are posted by whoever.  One step is one access
to what the threads share (`Action`).

* A call is under way in its thread (`Call`); that of the main thread is `call none`.
* `next_worker` reads the flags one after the other.
* What the callbacks of the services do are calls and posts of that kind.
-/

namespace HappyServer.Services

open Server

/-- The arguments of `router::new_service`. -/
structure Request where
  creation : Creation
  workerid : Int32

theorem Request.index_lt {router : Router} {r : Request}
    (h : router.workeridValid r.workerid.toUInt32 = true) :
    r.workerid.toUInt32.toNat - 1 < router.workers :=
  Core.pred_lt_workers h

namespace Host

/-- Where a thread is in a call. -/
inductive Call (router : Router) where
  | idle
  /-- in `next_worker`, with `n`, the free workers so far and those still to be looked at -/
  | scan (n : Nat) (free rest : List (Fin router.workers)) (a : Ask)
  /-- at `worker->add_service(…)` -/
  | post (i : Fin router.workers) (a : Ask)
  /-- in the loop of `server::stop` -/
  | stop (rest : List (Fin router.workers))

/-- Where the main thread is. -/
inductive Main (router : Router) where
  /-- in `server::init`, with the workers whose thread is not ready -/
  | making (rest : List (Fin router.workers))
  /-- in the loop over the configured services -/
  | asking (rest : List Request)
  /-- in the wait loop, at `server_->get_state() == state::init` -/
  | testState
  /-- in `service_count()` -/
  | counting (rest : List (Fin router.workers)) (count : UInt32)
  /-- in `run`, at `state_.store(state::ready)` -/
  | storing
  /-- in the loop that calls `start` of the workers -/
  | posting (rest : List (Fin router.workers))
  | running
  | returned

end Host

structure Host (router : Router) (ι : Type) where
  station : Fin router.workers → Station
  state_ : State := .unknown
  next_workerid_ : UInt32 := 0
  unique_services_ : UniqueServices := ∅
  main : Host.Main router
  call : Option ι → Host.Call router := fun _ => .idle

namespace Host

variable {router : Router} {ι : Type} [DecidableEq ι]

inductive Action (router : Router) (ι : Type) where
  /-- the main thread, where it is in no call -/
  | main
  | newService (i : ι) (r : Request)
  | stop (i : ι)
  /-- a thread goes on in its call -/
  | proceed (thread : Option ι)
  | post (i : Fin router.workers) (task : Station.Task)
  | work (i : Fin router.workers) (fresh : Nat → UInt8)

def setStation (s : Host router ι) (i : Fin router.workers) (t : Station) : Host router ι :=
  { s with station := Function.update s.station i t }

def setCall (s : Host router ι) (thread : Option ι) (c : Call router) : Host router ι :=
  { s with call := Function.update s.call thread c }

/-- The end of `next_worker`. -/
def choose (n : Nat) (free : List (Fin router.workers)) : Fin router.workers :=
  if h : free ≠ [] then free.get ⟨n % free.length, Nat.mod_lt _ (List.length_pos_of_ne_nil h)⟩
  else ⟨n % router.workers, Nat.mod_lt _ router.workers_pos⟩

/-- `new_service` up to the first look at a flag, or to the claim of the worker asked for. -/
def newService (s : Host router ι) (thread : Option ι) (r : Request) (configured : Bool) :
    Host router ι :=
  if h : router.workeridValid r.workerid.toUInt32 = true then
    let i : Fin router.workers := ⟨r.workerid.toUInt32.toNat - 1, Request.index_lt h⟩
    (s.setStation i (s.station i).claim).setCall thread (.post i ⟨r.creation, true, configured⟩)
  else
    { s with next_workerid_ := s.next_workerid_ + 1 }.setCall thread
      (.scan s.next_workerid_.toNat [] (List.finRange router.workers) ⟨r.creation, false, configured⟩)

/-- A thread goes on in its call. -/
def proceed (s : Host router ι) (thread : Option ι) : Option (Host router ι) :=
  match s.call thread with
  | .idle => none
  | .scan n free (i :: rest) a =>
    let free := if (s.station i).worker.shared_ then free ++ [i] else free
    some (s.setCall thread (.scan n free rest a))
  | .scan n free [] a => some (s.setCall thread (.post (choose n free) a))
  | .post i a =>
    some ((s.setStation i ((s.station i).post (.addService a))).setCall thread .idle)
  | .stop (i :: rest) =>
    some ((s.setStation i ((s.station i).post .stop)).setCall thread (.stop rest))
  | .stop [] => some (s.setCall thread .idle)

/-- The main thread goes on, with the configured services of `configs`. -/
def mainStep (configs : List Request) (s : Host router ι) : Option (Host router ι) :=
  match s.main with
  | .making (i :: rest) =>
    match (s.station i).pc with
    | .absent => some (s.setStation i { s.station i with pc := .begun })
    | _ =>
      -- `while (state_ != state::ready)`
      if (s.station i).worker.state_ = .ready then some { s with main := .making rest } else none
  | .making [] => some { s with state_ := .init, main := .asking configs }
  | .asking (r :: rest) => some { s.newService none r true with main := .asking rest }
  | .asking [] => some { s with main := .testState }
  | .testState =>
    some { s with
      main := if s.state_ = .init then .counting (List.finRange router.workers) 0 else .storing }
  | .counting (i :: rest) count =>
    some { s with main := .counting rest (count + (s.station i).worker.count_) }
  | .counting [] count =>
    some { s with main := if count.toNat < configs.length then .testState else .storing }
  | .storing => some { s with state_ := .ready, main := .posting (List.finRange router.workers) }
  | .posting (i :: rest) =>
    some { s.setStation i ((s.station i).post .start) with main := .posting rest }
  | .posting [] => some { s with main := .running }
  | .running =>
    -- all workers have stopped, and their threads are joined
    if ∀ i, (s.station i).worker.state_ = .exited then
      some { s with state_ := .exited, main := .returned }
    else none
  | .returned => none

def step (configs : List Request) (s : Host router ι) : Action router ι → Option (Host router ι)
  | .main =>
    match s.call none with
    | .idle => mainStep configs s
    | _ => none
  | .newService i r =>
    match s.call (some i) with
    | .idle => some (s.newService (some i) r false)
    | _ => none
  | .stop i =>
    match s.call (some i) with
    | .idle =>
      -- `state_.exchange(state::stopping)`
      let call := if s.state_ = .stopping ∨ s.state_ = .exited then .idle
        else .stop (List.finRange router.workers)
      some ({ s with state_ := .stopping }.setCall (some i) call)
    | _ => none
  | .proceed thread => s.proceed thread
  | .post i task => if task.free then some (s.setStation i ((s.station i).post task)) else none
  | .work i fresh =>
    ((s.station i).work fresh router s.state_ s.unique_services_).map fun (t, unique) =>
      { s.setStation i t with unique_services_ := unique }

/-- The server as constructed. -/
def make (router : Router) (ι : Type) : Host router ι where
  station i := .make i.val
  main := .making (List.finRange router.workers)

/-- Every interleaving of the threads. -/
def host (router : Router) (ι : Type) [DecidableEq ι] (configs : List Request) :
    System (Host router ι) (Action router ι) where
  start s := s = make router ι
  step s a s' := step configs s a = some s'

@[simp] theorem setCall_self (s : Host router ι) (thread : Option ι) (c : Call router) :
    (s.setCall thread c).call thread = c := Function.update_self ..

theorem setCall_of_ne {thread other : Option ι} (s : Host router ι) (c : Call router)
    (h : other ≠ thread) : (s.setCall thread c).call other = s.call other :=
  Function.update_of_ne h ..

omit [DecidableEq ι] in
@[simp] theorem setStation_self (s : Host router ι) (i : Fin router.workers) (t : Station) :
    (s.setStation i t).station i = t := Function.update_self ..

omit [DecidableEq ι] in
theorem setStation_of_ne {i j : Fin router.workers} (s : Host router ι) (t : Station) (h : j ≠ i) :
    (s.setStation i t).station j = s.station j := Function.update_of_ne h ..

/-- `new_service` claims a worker, or looks for one. -/
theorem newService_cases (s : Host router ι) (thread : Option ι) (r : Request) (configured : Bool) :
    (∃ i, s.newService thread r configured =
      (s.setStation i (s.station i).claim).setCall thread (.post i ⟨r.creation, true, configured⟩)) ∨
    s.newService thread r configured =
      { s with next_workerid_ := s.next_workerid_ + 1 }.setCall thread
        (.scan s.next_workerid_.toNat [] (List.finRange router.workers)
          ⟨r.creation, false, configured⟩) := by
  unfold newService
  split
  next h => exact .inl ⟨_, rfl⟩
  next h => exact .inr rfl

@[simp] theorem newService_main (s : Host router ι) (thread : Option ι) (r : Request)
    (configured : Bool) : (s.newService thread r configured).main = s.main := by
  rcases newService_cases s thread r configured with ⟨i, h⟩ | h <;> rw [h] <;> rfl

@[simp] theorem newService_state (s : Host router ι) (thread : Option ι) (r : Request)
    (configured : Bool) : (s.newService thread r configured).state_ = s.state_ := by
  rcases newService_cases s thread r configured with ⟨i, h⟩ | h <;> rw [h] <;> rfl

/-! ## Calls that nothing comes between -/

/-- What the workers and the router have. -/
def core (s : Host router ι) : Core router where
  workers_ i := (s.station i).worker
  next_workerid_ := s.next_workerid_
  unique_services_ := s.unique_services_

/-- `next_worker` reads the flags of the workers still to be looked at. -/
theorem scan_flags {thread : Option ι} {n : Nat} {free : List (Fin router.workers)} {a : Ask}
    (rest : List (Fin router.workers)) (s : Host router ι) (h : s.call thread = .scan n free rest a) :
    rest.foldlM (fun s _ => s.proceed thread) s = some (s.setCall thread
      (.scan n (free ++ rest.filter fun i => (s.station i).worker.shared_) [] a)) := by
  induction rest generalizing s free with
  | nil =>
    rw [List.filter_nil, List.append_nil, ← h]
    unfold setCall
    rw [Function.update_eq_self]
    rfl
  | cons i rest ih =>
    have hlook : s.proceed thread = some (s.setCall thread
        (.scan n (if (s.station i).worker.shared_ then free ++ [i] else free) rest a)) := by
      simp only [proceed, h]
    rw [List.foldlM_cons, hlook, Option.bind_eq_bind, Option.bind_some, ih _ (setCall_self _ _ _)]
    unfold setCall
    rw [Function.update_idem, List.filter_cons]
    cases (s.station i).worker.shared_ with
    | false => rfl
    | true =>
      rw [if_pos rfl, if_pos rfl, List.append_assoc]
      rfl

omit [DecidableEq ι] in
/-- Then it chooses as `nextWorker` does. -/
theorem choose_nextWorker (s : Host router ι) :
    choose s.next_workerid_.toNat
      ((List.finRange router.workers).filter fun i => (s.station i).worker.shared_) =
      s.core.nextWorker.1 := by
  have hnext : s.core.nextWorker.1 = choose s.core.next_workerid_.toNat
      ((List.finRange router.workers).filter fun i => (s.core.workers_ i).shared_) := by
    unfold choose Core.nextWorker
    exact apply_dite Prod.fst _ _ _
  exact hnext.symm

/-! ## Runs that are computed -/

def run (configs : List Request) (actions : List (Action router ι)) : Option (Host router ι) :=
  actions.foldlM (step configs) (make router ι)

theorem reach_run {configs : List Request} {actions : List (Action router ι)} {s : Host router ι}
    (h : run configs actions = some s) : (host router ι configs).Reach s :=
  System.Reach.foldlM (fun hstep => hstep) (System.Reach.start rfl) actions h

/-- A service without a name, on any worker. -/
def anywhere : Request := ⟨⟨true, true, [], false, 0, 0⟩, 0⟩

/-- The only worker is made, and it adds the only configured service; it has still to look at
the state of the server. -/
def oneAdded : List (Action oneWorker Unit) :=
  [.main, .work onlyWorker fun _ => 0, .main, .main, .main, .proceed none, .proceed none,
    .proceed none, .work onlyWorker fun _ => 0, .work onlyWorker fun _ => 0]

/-! ## What a step can be -/

variable {configs : List Request} {s s' : Host router ι}

/-- Everything a step can be. -/
inductive Stepped (configs : List Request) (s : Host router ι) :
    Action router ι → Host router ι → Prop
  | begin {i rest} : s.call none = .idle → s.main = .making (i :: rest) → (s.station i).pc = .absent →
      Stepped configs s .main (s.setStation i { s.station i with pc := .begun })
  | made {i rest} : s.call none = .idle → s.main = .making (i :: rest) →
      Stepped configs s .main { s with main := .making rest }
  | inited : s.call none = .idle → s.main = .making [] →
      Stepped configs s .main { s with state_ := .init, main := .asking configs }
  | ask {r rest} : s.call none = .idle → s.main = .asking (r :: rest) →
      Stepped configs s .main { s.newService none r true with main := .asking rest }
  | asked : s.call none = .idle → s.main = .asking [] →
      Stepped configs s .main { s with main := .testState }
  | test : s.call none = .idle → s.main = .testState → Stepped configs s .main { s with
      main := if s.state_ = .init then .counting (List.finRange router.workers) 0 else .storing }
  | count {i rest count} : s.call none = .idle → s.main = .counting (i :: rest) count →
      Stepped configs s .main { s with main := .counting rest (count + (s.station i).worker.count_) }
  | counted {count} : s.call none = .idle → s.main = .counting [] count →
      Stepped configs s .main { s with
        main := if count.toNat < configs.length then .testState else .storing }
  | store : s.call none = .idle → s.main = .storing → Stepped configs s .main { s with
      state_ := .ready, main := .posting (List.finRange router.workers) }
  | postStart {i rest} : s.call none = .idle → s.main = .posting (i :: rest) →
      Stepped configs s .main { s.setStation i ((s.station i).post .start) with main := .posting rest }
  | posted : s.call none = .idle → s.main = .posting [] →
      Stepped configs s .main { s with main := .running }
  | joined : s.call none = .idle → s.main = .running →
      (∀ i, (s.station i).worker.state_ = .exited) →
      Stepped configs s .main { s with state_ := .exited, main := .returned }
  | newService {i} (r : Request) : s.call (some i) = .idle →
      Stepped configs s (.newService i r) (s.newService (some i) r false)
  | exchange {i} (c : Call router) : s.call (some i) = .idle → (c = .idle ∨ ∃ rest, c = .stop rest) →
      Stepped configs s (.stop i) ({ s with state_ := .stopping }.setCall (some i) c)
  | look {thread n free i rest a} : s.call thread = .scan n free (i :: rest) a →
      Stepped configs s (.proceed thread) (s.setCall thread
        (.scan n (if (s.station i).worker.shared_ then free ++ [i] else free) rest a))
  | chosen {thread n free a} : s.call thread = .scan n free [] a →
      Stepped configs s (.proceed thread) (s.setCall thread (.post (choose n free) a))
  | enqueue {thread i a} : s.call thread = .post i a → Stepped configs s (.proceed thread)
      ((s.setStation i ((s.station i).post (.addService a))).setCall thread .idle)
  | stopOne {thread i rest} : s.call thread = .stop (i :: rest) → Stepped configs s (.proceed thread)
      ((s.setStation i ((s.station i).post .stop)).setCall thread (.stop rest))
  | stopped {thread} : s.call thread = .stop [] →
      Stepped configs s (.proceed thread) (s.setCall thread .idle)
  | post {i task} : task.free = true →
      Stepped configs s (.post i task) (s.setStation i ((s.station i).post task))
  | work {i fresh t} (unique : UniqueServices) : Station.Worked s.state_ (s.station i) t →
      Stepped configs s (.work i fresh) { s.setStation i t with unique_services_ := unique }

theorem mainStep_cases (hcall : s.call none = .idle) (h : mainStep configs s = some s') :
    Stepped configs s .main s' := by
  unfold mainStep at h
  split at h
  next i rest hmain =>
    split at h
    next hpc =>
      obtain rfl := Option.some.inj h
      exact .begin hcall hmain hpc
    · obtain ⟨-, h⟩ := Option.ite_none_right_eq_some.mp h
      obtain rfl := Option.some.inj h
      exact .made hcall hmain
  next hmain =>
    obtain rfl := Option.some.inj h
    exact .inited hcall hmain
  next r rest hmain =>
    obtain rfl := Option.some.inj h
    exact .ask hcall hmain
  next hmain =>
    obtain rfl := Option.some.inj h
    exact .asked hcall hmain
  next hmain =>
    obtain rfl := Option.some.inj h
    exact .test hcall hmain
  next i rest count hmain =>
    obtain rfl := Option.some.inj h
    exact .count hcall hmain
  next count hmain =>
    obtain rfl := Option.some.inj h
    exact .counted hcall hmain
  next hmain =>
    obtain rfl := Option.some.inj h
    exact .store hcall hmain
  next i rest hmain =>
    obtain rfl := Option.some.inj h
    exact .postStart hcall hmain
  next hmain =>
    obtain rfl := Option.some.inj h
    exact .posted hcall hmain
  next hmain =>
    obtain ⟨hexited, h⟩ := Option.ite_none_right_eq_some.mp h
    obtain rfl := Option.some.inj h
    exact .joined hcall hmain hexited
  · cases h

theorem proceed_cases {thread : Option ι} (h : s.proceed thread = some s') :
    Stepped configs s (.proceed thread) s' := by
  unfold proceed at h
  split at h
  · cases h
  next n free i rest a hcall =>
    obtain rfl := Option.some.inj h
    exact .look hcall
  next n free a hcall =>
    obtain rfl := Option.some.inj h
    exact .chosen hcall
  next i a hcall =>
    obtain rfl := Option.some.inj h
    exact .enqueue hcall
  next i rest hcall =>
    obtain rfl := Option.some.inj h
    exact .stopOne hcall
  next hcall =>
    obtain rfl := Option.some.inj h
    exact .stopped hcall

theorem step_cases {a : Action router ι} (h : step configs s a = some s') :
    Stepped configs s a s' := by
  unfold step at h
  cases a with
  | main =>
    dsimp only at h
    split at h
    next hcall => exact mainStep_cases hcall h
    · cases h
  | newService i r =>
    dsimp only at h
    split at h
    next hcall =>
      obtain rfl := Option.some.inj h
      exact .newService r hcall
    · cases h
  | stop i =>
    dsimp only at h
    split at h
    next hcall =>
      obtain rfl := Option.some.inj h
      refine .exchange _ hcall ?_
      split
      · exact .inl rfl
      · exact .inr ⟨_, rfl⟩
    · cases h
  | proceed thread => exact proceed_cases h
  | post i task =>
    obtain ⟨hfree, h⟩ := Option.ite_none_right_eq_some.mp h
    obtain rfl := Option.some.inj h
    exact .post hfree
  | work i fresh =>
    obtain ⟨⟨t, unique⟩, hwork, rfl⟩ := Option.map_eq_some_iff.mp h
    exact .work unique (Station.work_cases hwork)

/-! ## One worker -/

omit [DecidableEq ι] in
theorem changed_setStation {i : Fin router.workers} {t : Station}
    (h : Station.Changed s.state_ (s.station i) t) (j : Fin router.workers) :
    Station.Changed s.state_ (s.station j) ((s.setStation i t).station j) := by
  by_cases hj : j = i
  · subst hj
    rw [setStation_self]
    exact h
  · rw [setStation_of_ne s t hj]
    exact .same

theorem newService_changed (s : Host router ι) (thread : Option ι) (r : Request)
    (configured : Bool) (j : Fin router.workers) :
    Station.Changed s.state_ (s.station j) ((s.newService thread r configured).station j) := by
  rcases newService_cases s thread r configured with ⟨i, h⟩ | h
  · rw [h]
    exact changed_setStation .claim j
  · rw [h]
    exact .same

theorem Stepped.changed {a : Action router ι} (h : Stepped configs s a s') (j : Fin router.workers) :
    Station.Changed s.state_ (s.station j) (s'.station j) := by
  cases h with
  | begin hcall hmain hpc => exact changed_setStation (.begin hpc) j
  | ask hcall hmain => exact newService_changed s none _ true j
  | postStart hcall hmain => exact changed_setStation (.post _) j
  | newService r hcall => exact newService_changed s _ r false j
  | enqueue hcall => exact changed_setStation (.post _) j
  | stopOne hcall => exact changed_setStation (.post _) j
  | post hfree => exact changed_setStation (.post _) j
  | work unique hwork => exact changed_setStation (.work hwork) j
  | _ => exact .same

/-- What every change of a worker keeps holds of all workers of all reachable states. -/
theorem station_of_reach {P : Station → Prop} (hmake : ∀ i, P (.make i))
    (hchanged : ∀ serverState t t', P t → Station.Changed serverState t t' → P t')
    (h : (host router ι configs).Reach s) (i : Fin router.workers) : P (s.station i) := by
  refine System.Reach.invariant (P := fun s => P (s.station i)) ?_ ?_ h
  · rintro s rfl
    exact hmake i.val
  · intro s a s' _ hs hstep
    exact hchanged _ _ _ hs ((step_cases hstep).changed i)

end Host

end HappyServer.Services
