import HappyServer.Services.Registry

/-!
# A worker, its queue and its thread (`core/worker.cpp`)

The thread takes one task after the other from `queue_`.  A creation is three steps: `create`, up to
`init`; the `emplace` and `count_.fetch_add`; and the look at the state of the server that decides
about `start`.  The other tasks are one step: only their writes of `shared_`, `count_` and
`state_` can be seen by another thread.

* Services are numbered in the order in which they came through `init` (`inited`); `origin` says
  which one an id stands for.
* `emplaced`, `erased`, `starts`, `exits` and `atStop` are not in the source: the numbers of the
  services that were put into and taken out of `services_`, whose `start` and `exit` callbacks
  were run, and that were there when the worker began to stop.
-/

namespace HappyServer.Services

open Server

/-- A creation on its way to a worker. -/
structure Ask where
  creation : Creation
  /-- it was asked for with the id of a worker -/
  explicit : Bool
  /-- it was asked for by the configuration -/
  configured : Bool

structure Origin where
  number : Nat
  explicit : Bool

namespace Station

inductive Task where
  | addService (a : Ask)
  | removeService (serviceid sender : UInt32) (sessionid : Int32)
  | stop
  | start
  /-- of `send` and `update` -/
  | other

/-- Anybody may post it: `start` is posted by `run`, `add_service` by `new_service`. -/
def Task.free : Task → Bool
  | .removeService _ _ _ => true
  | .stop => true
  | .other => true
  | _ => false

/-- Where the thread is. -/
inductive Pc where
  /-- it was not made yet -/
  | absent
  /-- at `state_.store(state::ready)` -/
  | begun
  /-- between two tasks -/
  | idle
  /-- in `add_service` after `init`, with the service and its number if there is one -/
  | adding (a : Ask) (new : Option (Service × Nat))
  /-- after `count_.fetch_add`, at `server_->get_state()` -/
  | added (a : Ask) (serviceid : UInt32)

end Station

structure Station where
  worker : Worker
  pc : Station.Pc := .absent
  queue : List Station.Task := []
  inited : Nat := 0
  origin : UInt32 → Origin := fun _ => ⟨0, false⟩
  emplaced : List Nat := []
  erased : List Nat := []
  starts : List Nat := []
  atStop : List Nat := []
  exits : List Nat := []

namespace Station

def number (t : Station) (serviceid : UInt32) : Nat := (t.origin serviceid).number

def size (t : Station) : Nat := t.worker.services_.keys.length

/-- The numbers of the services that are there. -/
def live (t : Station) : List Nat := t.worker.services_.keys.map t.number

def post (t : Station) (task : Task) : Station := { t with queue := t.queue ++ [task] }

/-- `worker->shared(false)` -/
def claim (t : Station) : Station := { t with worker := { t.worker with shared_ := false } }

/-- `start()` of the service under this id. -/
def startService (t : Station) (serviceid : UInt32) : Station :=
  match t.worker.services_.lookup serviceid with
  | none => t
  | some s =>
    { t with
      worker := { t.worker with services_ := t.worker.services_.insert serviceid s.start }
      starts := if s.start_ || !s.ok_ then t.starts else t.starts ++ [t.number serviceid] }

/-- The task of `start`. -/
def start (t : Station) : Station := t.worker.services_.keys.foldl startService t

/-- The task of `stop`; the loop calls `exit()` of each service. -/
def stop (t : Station) : Station :=
  if t.worker.state_ = .stopping ∨ t.worker.state_ = .exited then t
  else if t.worker.isEmpty then { t with worker := { t.worker with state_ := .exited } }
  else { t with
    worker := { t.worker with state_ := .stopping }
    atStop := t.live
    exits := t.worker.services_.keys.foldl (fun exits serviceid => exits ++ [t.number serviceid])
      t.exits }

section

variable (fresh : Nat → UInt8) (router : Router) (serverState : State) (unique : UniqueServices)

/-- A task begins. -/
def run (t : Station) : Task → Option (Station × UniqueServices)
  | .addService a =>
    let (s, w, unique) := t.worker.create unique a.creation
    some ({ t with
      worker := w
      pc := .adding a (s.map fun s => (s, t.inited))
      inited := if s.isSome then t.inited + 1 else t.inited }, unique)
  | .removeService serviceid sender sessionid =>
    (t.worker.removeService fresh router serviceid sender sessionid).map fun removal =>
      ({ t with
        worker := removal.worker
        erased := if serviceid ∈ t.worker.services_ then t.erased ++ [t.number serviceid]
          else t.erased }, unique)
  | .stop => some (t.stop, unique)
  | .start => some (t.start, unique)
  | .other => some (t, unique)

/-- `services_.emplace` and `count_.fetch_add`, or the tail of a creation that failed. -/
def emplace (t : Station) (a : Ask) (new : Option (Service × Nat)) : Station :=
  match new.bind fun (s, number) => (t.worker.add .init s).map fun w => (s.id_, number, w) with
  | some (serviceid, number, w) => { t with
      worker := w
      pc := .added a serviceid
      origin := Function.update t.origin serviceid ⟨number, a.explicit⟩
      emplaced := t.emplaced ++ [number] }
  | none => { t with worker := { t.worker with shared_ := t.worker.isEmpty }, pc := .idle }

/-- The thread goes on. -/
def work (t : Station) : Option (Station × UniqueServices) :=
  match t.pc with
  | .absent => none
  | .begun => some ({ t with worker := { t.worker with state_ := .ready }, pc := .idle }, unique)
  | .idle =>
    if t.worker.state_ = .exited then none
    else
      match t.queue with
      | [] => none
      | task :: queue => run fresh router unique { t with queue := queue } task
  | .adding a new => some (t.emplace a new, unique)
  | .added _ serviceid =>
    some ({ if serverState ≠ .init then t.startService serviceid else t with pc := .idle }, unique)

end

/-- `std::make_unique<worker>(…)` for the worker of this index. -/
def make (i : Nat) : Station where
  worker := { workerid_ := UInt8.ofNat (i + 1) }

/-! ## What a step can be -/

variable {fresh : Nat → UInt8} {router : Router} {serverState : State}
  {unique unique' : UniqueServices} {t t' : Station}

/-- Everything the thread can do. -/
inductive Worked (serverState : State) (t : Station) : Station → Prop
  | begin : t.pc = .begun →
      Worked serverState t { t with worker := { t.worker with state_ := .ready }, pc := .idle }
  | create {a queue} (unique : UniqueServices) : t.pc = .idle → t.worker.state_ ≠ .exited →
      t.queue = .addService a :: queue →
      Worked serverState t { t with
        queue := queue
        worker := (t.worker.create unique a.creation).2.1
        pc := .adding a ((t.worker.create unique a.creation).1.map fun s => (s, t.inited))
        inited := if (t.worker.create unique a.creation).1.isSome then t.inited + 1 else t.inited }
  | remove {serviceid sender sessionid queue fresh router removal} : t.pc = .idle →
      t.worker.state_ ≠ .exited → t.queue = .removeService serviceid sender sessionid :: queue →
      t.worker.removeService fresh router serviceid sender sessionid = some removal →
      Worked serverState t { t with
        queue := queue
        worker := removal.worker
        erased := if serviceid ∈ t.worker.services_ then t.erased ++ [t.number serviceid]
          else t.erased }
  | stop {queue} : t.pc = .idle → t.worker.state_ ≠ .exited → t.queue = .stop :: queue →
      Worked serverState t { t with queue := queue }.stop
  | start {queue} : t.pc = .idle → t.worker.state_ ≠ .exited → t.queue = .start :: queue →
      Worked serverState t { t with queue := queue }.start
  | other {queue} : t.pc = .idle → t.worker.state_ ≠ .exited → t.queue = .other :: queue →
      Worked serverState t { t with queue := queue }
  | emplace {a new} : t.pc = .adding a new → Worked serverState t (t.emplace a new)
  | look {a serviceid} : t.pc = .added a serviceid → Worked serverState t
      { if serverState ≠ .init then t.startService serviceid else t with pc := .idle }

theorem work_cases (h : t.work fresh router serverState unique = some (t', unique')) :
    Worked serverState t t' := by
  unfold work at h
  split at h
  · cases h
  next hpc =>
    obtain ⟨rfl, -⟩ := Prod.mk.inj (Option.some.inj h)
    exact .begin hpc
  next hpc =>
    obtain ⟨hstate, h⟩ := Option.ite_none_left_eq_some.mp h
    split at h
    · cases h
    next task queue hqueue =>
      cases task with
      | addService a =>
        obtain ⟨rfl, -⟩ := Prod.mk.inj (Option.some.inj h)
        exact .create unique hpc hstate hqueue
      | removeService serviceid sender sessionid =>
        obtain ⟨removal, hremove, h⟩ := Option.map_eq_some_iff.mp h
        obtain ⟨rfl, -⟩ := Prod.mk.inj h
        exact .remove hpc hstate hqueue hremove
      | stop =>
        obtain ⟨rfl, -⟩ := Prod.mk.inj (Option.some.inj h)
        exact .stop hpc hstate hqueue
      | start =>
        obtain ⟨rfl, -⟩ := Prod.mk.inj (Option.some.inj h)
        exact .start hpc hstate hqueue
      | other =>
        obtain ⟨rfl, -⟩ := Prod.mk.inj (Option.some.inj h)
        exact .other hpc hstate hqueue
  next a new hpc =>
    obtain ⟨rfl, -⟩ := Prod.mk.inj (Option.some.inj h)
    exact .emplace hpc
  next a serviceid hpc =>
    obtain ⟨rfl, -⟩ := Prod.mk.inj (Option.some.inj h)
    exact .look hpc

/-! ## What the tasks do -/

variable {w : Worker}

theorem isEmpty_iff : w.isEmpty = true ↔ w.services_.keys = [] := by
  unfold Worker.isEmpty
  rw [List.isEmpty_iff]
  exact List.map_eq_nil_iff.symm

theorem keys_ne_nil {serviceid : UInt32} (h : serviceid ∈ w.services_) : w.services_.keys ≠ [] :=
  List.ne_nil_of_mem (AList.mem_keys.mp h)

/-- A creation up to `init` moves the counter of ids on; a service it makes was not started. -/
theorem create_spec (w : Worker) (unique : UniqueServices) (c : Creation) :
    (∃ uuid, (w.create unique c).2.1 = { w with uuid_ := uuid }) ∧
      ∀ s, (w.create unique c).1 = some s → w.state_ = .ready ∧ s.start_ = false ∧
        ∃ res, s.id_ = w.idOf res := by
  by_cases hpasses : Passes w unique c
  · obtain ⟨huuid, ⟨k, hk⟩, -⟩ := search_max w
    rw [create_passes hpasses]
    refine ⟨huuid, ?_⟩
    rintro _ ⟨⟩
    exact ⟨hpasses.1, rfl, _, hk⟩
  · obtain ⟨uuid, hcreate⟩ := create_fails hpasses
    rw [hcreate]
    exact ⟨⟨uuid, rfl⟩, nofun⟩

/-- What is left of a worker when this service is removed. -/
def without (w : Worker) (serviceid : UInt32) : Worker :=
  { w with
    services_ := w.services_.erase serviceid
    count_ := if serviceid ∈ w.services_ then w.count_ - 1 else w.count_
    shared_ := w.shared_ || (serviceid ∈ w.services_ && (w.services_.erase serviceid).keys = [])
    state_ := if (w.services_.erase serviceid).keys = [] ∧ w.state_ = .stopping then .exited
      else w.state_ }

theorem erase_of_notMem {serviceid : UInt32} (h : serviceid ∉ w.services_) :
    w.services_.erase serviceid = w.services_ :=
  AList.ext (List.kerase_of_notMem_keys (mt AList.mem_keys.mpr h))

theorem length_insert {services : AList fun _ : UInt32 => Service} {serviceid : UInt32} {s : Service}
    (h : serviceid ∉ services) :
    (services.insert serviceid s).keys.length = services.keys.length + 1 := by
  rw [AList.keys_insert, List.erase_of_not_mem (mt AList.mem_keys.mpr h), List.length_cons]

theorem length_erase (services : AList fun _ : UInt32 => Service) (serviceid : UInt32) :
    (services.erase serviceid).keys.length =
      if serviceid ∈ services then services.keys.length - 1 else services.keys.length := by
  rw [AList.keys_erase]
  split
  next hin => exact List.length_erase_of_mem (AList.mem_keys.mp hin)
  next hout => rw [List.erase_of_not_mem (mt AList.mem_keys.mpr hout)]

theorem settle_worker (removal : Removal) :
    removal.settle.worker = { removal.worker with
      state_ := if removal.worker.services_.keys = [] ∧ removal.worker.state_ = .stopping then .exited
        else removal.worker.state_ } := by
  unfold Removal.settle
  by_cases h : removal.worker.services_.keys = [] ∧ removal.worker.state_ = .stopping
  · rw [if_pos h, if_pos (by simp [isEmpty_iff.mpr h.1, h.2])]
  · rw [if_neg h, if_neg (by simpa [isEmpty_iff] using h)]

theorem removeService_worker {serviceid sender : UInt32} {sessionid : Int32} {removal : Removal}
    (h : w.removeService fresh router serviceid sender sessionid = some removal) :
    removal.worker = without w serviceid := by
  obtain ⟨r, hr, rfl⟩ := Option.map_eq_some_iff.mp h
  rw [settle_worker]
  split at hr
  next s hs =>
    have hmem : serviceid ∈ w.services_ := AList.lookup_isSome.mp (by rw [hs]; rfl)
    unfold Worker.destroy at hr
    obtain ⟨content, -, hr⟩ := Option.bind_eq_some_iff.mp hr
    obtain ⟨buf, -, hr⟩ := Option.bind_eq_some_iff.mp hr
    obtain ⟨buf', -, hr⟩ := Option.bind_eq_some_iff.mp hr
    obtain rfl := Option.some.inj hr
    have hempty : (Worker.isEmpty { w with
        count_ := w.count_ - 1, services_ := w.services_.erase serviceid }) = true ↔
        (w.services_.erase serviceid).keys = [] := isEmpty_iff
    by_cases hnil : (w.services_.erase serviceid).keys = []
    · simp only [if_pos (hempty.mpr hnil), without, hmem, hnil, if_true, decide_true, Bool.and_true,
        Bool.or_true]
    · simp only [if_neg (mt hempty.mp hnil), without, hmem, hnil, if_true, decide_false,
        Bool.and_false, Bool.or_false]
  next hnone =>
    have hmem : serviceid ∉ w.services_ := AList.lookup_eq_none.mp hnone
    obtain ⟨content, -, rfl⟩ := Option.map_eq_some_iff.mp hr
    simp [without, hmem, erase_of_notMem]

/-- A creation that came through `init` adds its service, unless its id is in use. -/
theorem emplace_added {a : Ask} {s : Service} {number : Nat} (h : s.id_ ∉ t.worker.services_) :
    t.emplace a (some (s, number)) = { t with
      worker := { t.worker with
        services_ := t.worker.services_.insert s.id_ { s with ok_ := true }
        count_ := t.worker.count_ + 1 }
      pc := .added a s.id_
      origin := Function.update t.origin s.id_ ⟨number, a.explicit⟩
      emplaced := t.emplaced ++ [number] } := by
  have hadd : t.worker.add .init s = some { t.worker with
      services_ := t.worker.services_.insert s.id_ { s with ok_ := true }
      count_ := t.worker.count_ + 1 } := if_neg h
  unfold emplace
  simp only [Option.bind_some, hadd, Option.map_some]

theorem emplace_refused {a : Ask} {new : Option (Service × Nat)}
    (h : ∀ s number, new = some (s, number) → s.id_ ∈ t.worker.services_) :
    t.emplace a new =
      { t with worker := { t.worker with shared_ := t.worker.isEmpty }, pc := .idle } := by
  unfold emplace
  cases new with
  | none => rfl
  | some p =>
    have hadd : t.worker.add .init p.1 = none := if_pos (h p.1 p.2 rfl)
    simp only [Option.bind_some, hadd, Option.map_none]

/-- The creation comes to nothing. -/
def Refused (t : Station) (new : Option (Service × Nat)) : Prop :=
  ∀ s number, new = some (s, number) → s.id_ ∈ t.worker.services_

instance (t : Station) (new : Option (Service × Nat)) : Decidable (t.Refused new) :=
  match new with
  | none => isTrue nofun
  | some (s, number) => decidable_of_iff (s.id_ ∈ t.worker.services_)
      ⟨fun h => by rintro _ _ ⟨⟩; exact h, fun h => h s number rfl⟩

theorem not_refused {new : Option (Service × Nat)} (h : ¬t.Refused new) :
    ∃ s number, new = some (s, number) ∧ s.id_ ∉ t.worker.services_ := by
  unfold Refused at h
  push Not at h
  exact h

/-- `t'` differs from `t` in which services were started. -/
def StartedFrom (t t' : Station) : Prop :=
  ∃ services starts, t' = { t with
      worker := { t.worker with services_ := services }, starts := starts } ∧
    services.keys.Perm t.worker.services_.keys

theorem startService_from (t : Station) (serviceid : UInt32) :
    StartedFrom t (t.startService serviceid) := by
  unfold startService
  split
  · exact ⟨_, _, rfl, .refl _⟩
  next s hs =>
    have hmem : serviceid ∈ t.worker.services_ := AList.lookup_isSome.mp (by rw [hs]; rfl)
    refine ⟨_, _, rfl, ?_⟩
    rw [AList.keys_insert]
    exact (List.perm_cons_erase (AList.mem_keys.mp hmem)).symm

theorem StartedFrom.trans {t'' : Station} (h : StartedFrom t t') (h' : StartedFrom t' t'') :
    StartedFrom t t'' := by
  obtain ⟨services, starts, rfl, hperm⟩ := h
  obtain ⟨services', starts', rfl, hperm'⟩ := h'
  exact ⟨services', starts', rfl, hperm'.trans hperm⟩

theorem start_from (t : Station) : StartedFrom t t.start := by
  have hfold : ∀ (serviceids : List UInt32) (t : Station),
      StartedFrom t (serviceids.foldl startService t) := by
    intro serviceids
    induction serviceids with
    | nil => exact fun t => ⟨_, _, rfl, .refl _⟩
    | cons serviceid serviceids ih =>
      intro t
      exact (startService_from t serviceid).trans (ih _)
  exact hfold t.worker.services_.keys t

/-- The loop of `stop` gives each service one `exit()`. -/
theorem stop_exits (t : Station) :
    t.worker.services_.keys.foldl (fun exits serviceid => exits ++ [t.number serviceid]) t.exits =
      t.exits ++ t.live := by
  have hfold : ∀ (serviceids : List UInt32) (exits : List Nat),
      serviceids.foldl (fun exits serviceid => exits ++ [t.number serviceid]) exits =
        exits ++ serviceids.map t.number := by
    intro serviceids
    induction serviceids with
    | nil => simp
    | cons serviceid serviceids ih =>
      intro exits
      rw [List.foldl_cons, ih, List.append_assoc, List.map_cons, List.singleton_append]
  exact hfold t.worker.services_.keys t.exits

/-- `emplace` and what follows it, with nothing in between, are the second half of the creation. -/
theorem emplace_finish (t : Station) (a : Ask) (s : Option Service) (number : Nat) :
    let t' := t.emplace a (s.map fun s => (s, number))
    (match t'.pc with
      | .added _ serviceid => if serverState ≠ State.init then t'.startService serviceid else t'
      | _ => t').worker = (t.worker.finish fresh router serverState a.creation s).1 := by
  intro t'
  cases s with
  | none => rfl
  | some s =>
    have hfinish : ∀ w, t.worker.add serverState s = w → (t.worker.finish fresh router serverState
        a.creation (some s)).1 = w.getD { t.worker with shared_ := t.worker.isEmpty } := by
      rintro _ rfl
      unfold Worker.finish
      rw [Option.bind_some]
      cases t.worker.add serverState s <;> rfl
    by_cases hmem : s.id_ ∈ t.worker.services_
    · have hrefused : t' =
          { t with worker := { t.worker with shared_ := t.worker.isEmpty }, pc := .idle } := by
        refine emplace_refused ?_
        rintro _ _ ⟨⟩
        exact hmem
      rw [hrefused, hfinish none (if_pos hmem)]
      rfl
    · have hadded : t' = _ := emplace_added hmem
      rw [hadded, hfinish _ (if_neg hmem)]
      by_cases hinit : serverState = .init
      · simp only [hinit, ne_eq, not_true, if_false]
        rfl
      · have hlookup := AList.lookup_insert (a := s.id_) (b := { s with ok_ := true })
          t.worker.services_
        simp only [hinit, ne_eq, not_false_eq_true, if_true, startService, hlookup, AList.insert_insert]
        rfl

/-- Everything the task of `stop` can do. -/
theorem stop_cases (t : Station) :
    (t.worker.state_ = .stopping ∨ t.worker.state_ = .exited) ∧ t.stop = t ∨
      (t.worker.state_ ≠ .stopping ∧ t.worker.state_ ≠ .exited) ∧ t.worker.services_.keys = [] ∧
        t.stop = { t with worker := { t.worker with state_ := .exited } } ∨
      (t.worker.state_ ≠ .stopping ∧ t.worker.state_ ≠ .exited) ∧ t.worker.services_.keys ≠ [] ∧
        t.stop = { t with
          worker := { t.worker with state_ := .stopping }
          atStop := t.live
          exits := t.exits ++ t.live } := by
  unfold stop
  split
  next h => exact .inl ⟨h, rfl⟩
  next h =>
    rw [not_or] at h
    split
    next hempty => exact .inr (.inl ⟨h, isEmpty_iff.mp hempty, rfl⟩)
    next hempty =>
      rw [stop_exits]
      exact .inr (.inr ⟨h, mt isEmpty_iff.mpr hempty, rfl⟩)

/-- What the task of `stop` leaves alone. -/
theorem stop_from (t : Station) : ∃ state atStop exits, t.stop =
    { t with worker := { t.worker with state_ := state }, atStop := atStop, exits := exits } := by
  rcases stop_cases t with ⟨-, hstop⟩ | ⟨-, -, hstop⟩ | ⟨-, -, hstop⟩
  · exact ⟨_, _, _, hstop⟩
  · exact ⟨_, _, _, hstop⟩
  · exact ⟨_, _, _, hstop⟩

/-- The look at the state of the server, before the thread is between two tasks again. -/
theorem look_from (serverState : State) (t : Station) (serviceid : UInt32) :
    StartedFrom t (if serverState ≠ .init then t.startService serviceid else t) := by
  split
  · exact startService_from t serviceid
  · exact ⟨_, _, rfl, .refl _⟩

/-- Everything that can happen to a worker in a step of a thread. -/
inductive Changed (serverState : State) (t : Station) : Station → Prop
  | same : Changed serverState t t
  | begin : t.pc = .absent → Changed serverState t { t with pc := .begun }
  | claim : Changed serverState t t.claim
  | post (task : Task) : Changed serverState t (t.post task)
  | work {t' : Station} : Worked serverState t t' → Changed serverState t t'

end Station

end HappyServer.Services
