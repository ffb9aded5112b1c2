import HappyServer.Lib.Runs
import HappyServer.Services.Creation

/-!
# The registry of unique services (`router::unique_services_`)

A name is registered by `init`, in the first half of a creation, and never taken out.  A run
interleaves the halves of creations and the removals of all workers.

    between tasks every name is that of a live unique service
      ⇐ no unique service is removed, none is registered with no id free      (namesLive_of_reach)
-/

namespace HappyServer.Services

open Server

variable {router : Router}

/-! ## Runs -/

/-- Where a worker's thread is: between two tasks, or behind the first half of a creation. -/
inductive Pc where
  | idle
  | adding (c : Creation) (s : Option Service)

structure Site (router : Router) where
  core : Core router
  pc : Fin router.workers → Pc

inductive Task (router : Router) where
  | create (i : Fin router.workers) (c : Creation)
  | finish (i : Fin router.workers) (fresh : Nat → UInt8) (serverState : State)
  | remove (i : Fin router.workers) (fresh : Nat → UInt8) (serviceid sender : UInt32)
    (sessionid : Int32)

def Site.start (router : Router) : Site router := ⟨.start router, fun _ => .idle⟩

/-- A worker's thread goes on: its worker and where it is then. -/
def Site.put (site : Site router) (i : Fin router.workers) (w : Worker) (pc : Pc) : Site router :=
  ⟨site.core.setWorker i w, Function.update site.pc i pc⟩

def Site.step (site : Site router) : Task router → Option (Site router)
  | .create i c =>
    match site.pc i with
    | .idle =>
      let r := (site.core.workers_ i).create site.core.unique_services_ c
      some (Site.put ⟨{ site.core with unique_services_ := r.2.2 }, site.pc⟩ i r.2.1 (.adding c r.1))
    | .adding _ _ => none
  | .finish i fresh serverState =>
    match site.pc i with
    | .idle => none
    | .adding c s =>
      some (site.put i ((site.core.workers_ i).finish fresh router serverState c s).1 .idle)
  | .remove i fresh serviceid sender sessionid =>
    match site.pc i with
    | .idle =>
      ((site.core.workers_ i).removeService fresh router serviceid sender sessionid).map fun removal =>
        site.put i removal.worker .idle
    | .adding _ _ => none

def registrySystem (router : Router) : System (Site router) (Task router) where
  start site := site = .start router
  step site task site' := site.step task = some site'

/-! ## Names and services -/

/-- A unique service of this name is live under the id. -/
def Site.Names (site : Site router) (name : List UInt8) (serviceid : UInt32) : Prop :=
  ∃ i : Fin router.workers, (workerId serviceid).toNat = i.val + 1 ∧
    ∃ s, (site.core.workers_ i).services_.lookup serviceid = some s ∧ s.unique_ = true ∧ s.name_ = name

structure NamesLive (site : Site router) : Prop where
  live : ∀ name serviceid, site.core.unique_services_.lookup name = some serviceid →
    site.Names name serviceid
  /-- a name that no service has can be had -/
  free : ∀ name, (∀ serviceid, ¬site.Names name serviceid) →
    getUniqueService site.core.unique_services_ name = 0 ∧
      (name ≠ [] → ∀ v, (setUniqueService site.core.unique_services_ name v).isSome = true)

/-- What is removed is no unique service, and what is registered has an id that is free. -/
def KeepsNames (site : Site router) : Task router → Prop
  | .create i c => c.unique = true → Passes (site.core.workers_ i) site.core.unique_services_ c →
    ¬(site.core.workers_ i).Exhausted
  | .finish _ _ _ => True
  | .remove i _ serviceid _ _ =>
    ∀ s, (site.core.workers_ i).services_.lookup serviceid = some s → s.unique_ = false

theorem namesLive_of_live {site : Site router}
    (h : ∀ name serviceid, site.core.unique_services_.lookup name = some serviceid →
      site.Names name serviceid) : NamesLive site := by
  refine ⟨h, fun name hname => ?_⟩
  have hnone : site.core.unique_services_.lookup name = none := by
    cases hlookup : site.core.unique_services_.lookup name with
    | none => rfl
    | some serviceid => exact absurd (h name serviceid hlookup) (hname serviceid)
  constructor
  · unfold getUniqueService
    rw [hnone]
    split <;> rfl
  · intro hne v
    unfold setUniqueService
    rw [if_neg hne, if_neg (AList.lookup_eq_none.mp hnone)]
    rfl

/-! ## Ids -/

/-- An id says on which worker it was made. -/
theorem workerId_idOf (w : Worker) (res : UInt32) : workerId (w.idOf res) = w.workerid_.toUInt32 := by
  have hlow : (res % 0xFFFF + 1).toNat < 2 ^ 24 := by
    have := Nat.mod_lt res.toNat (show 0xFFFF > 0 by decide)
    rw [UInt32.toNat_add, UInt32.toNat_mod]
    show (res.toNat % 0xFFFF + 1) % 2 ^ 32 < 2 ^ 24
    omega
  have hid : w.workerid_.toNat < 2 ^ 8 := w.workerid_.toNat_lt
  apply UInt32.toNat_inj.mp
  unfold workerId Worker.idOf
  generalize res % 0xFFFF + 1 = low at hlow ⊢
  rw [UInt32.toNat_and, UInt32.toNat_shiftRight, UInt32.toNat_or, UInt32.toNat_shiftLeft,
    UInt8.toNat_toUInt32]
  show ((low.toNat ||| (w.workerid_.toNat <<< 24) % 2 ^ 32) >>> 24) &&& (2 ^ 8 - 1) = _
  rw [Nat.and_two_pow_sub_one_eq_mod, Nat.shiftRight_or_distrib, Nat.shiftLeft_eq,
    Nat.mod_eq_of_lt (show w.workerid_.toNat * 2 ^ 24 < 2 ^ 32 by omega),
    Nat.shiftRight_eq_div_pow, Nat.shiftRight_eq_div_pow, Nat.mul_div_cancel _ (by decide),
    Nat.div_eq_of_lt hlow, Nat.zero_or, Nat.mod_eq_of_lt hid]

/-! ## What the tasks do to the services -/

variable {w w' : Worker} {fresh : Nat → UInt8} {serverState : State} {c : Creation}

@[simp] theorem start_name (s : Service) : s.start.name_ = s.name_ := by
  unfold Service.start
  split <;> rfl

@[simp] theorem start_unique (s : Service) : s.start.unique_ = s.unique_ := by
  unfold Service.start
  split <;> rfl

/-- The service as it is added. -/
def Service.added (s : Service) (serverState : State) : Service :=
  if serverState ≠ .init then Service.start { s with ok_ := true } else { s with ok_ := true }

theorem added_unique (s : Service) : (s.added serverState).unique_ = s.unique_ := by
  unfold Service.added
  split
  · exact start_unique _
  · rfl

theorem added_name (s : Service) : (s.added serverState).name_ = s.name_ := by
  unfold Service.added
  split
  · exact start_name _
  · rfl

theorem finish_added {s : Service} (h : s.id_ ∉ w.services_) :
    (w.finish fresh router serverState c (some s)).1 =
      { w with
        services_ := w.services_.insert s.id_ (s.added serverState)
        count_ := w.count_ + 1 } := by
  have hadd : w.add serverState s = some { w with
      services_ := w.services_.insert s.id_ (s.added serverState)
      count_ := w.count_ + 1 } := if_neg h
  unfold Worker.finish
  rw [Option.bind_some, hadd]
  rfl

theorem finish_refused {s : Option Service} (h : ∀ new, s = some new → new.id_ ∈ w.services_) :
    (w.finish fresh router serverState c s).1 = { w with shared_ := w.isEmpty } := by
  unfold Worker.finish
  cases s with
  | none => rfl
  | some s =>
    have hadd : w.add serverState s = none := if_pos (h s rfl)
    rw [Option.bind_some, hadd]
    rfl

/-- The services after the second half of a creation: what was there, and `s` if its id was
free. -/
theorem finish_services (fresh : Nat → UInt8) (router : Router) (serverState : State) (w : Worker)
    (c : Creation) (s : Option Service) :
    (w.finish fresh router serverState c s).1.workerid_ = w.workerid_ ∧
      (∀ serviceid ∈ w.services_, (w.finish fresh router serverState c s).1.services_.lookup serviceid =
        w.services_.lookup serviceid) ∧
      ∀ new, s = some new → new.id_ ∉ w.services_ → ∃ added,
        (w.finish fresh router serverState c s).1.services_.lookup new.id_ = some added ∧
          added.unique_ = new.unique_ ∧ added.name_ = new.name_ := by
  by_cases hfree : ∃ new, s = some new ∧ new.id_ ∉ w.services_
  · obtain ⟨new, rfl, hfree⟩ := hfree
    rw [finish_added hfree]
    refine ⟨rfl, fun serviceid hmem => AList.lookup_insert_ne fun heq => hfree (heq ▸ hmem), ?_⟩
    rintro _ ⟨⟩ -
    exact ⟨_, AList.lookup_insert _, added_unique new, added_name new⟩
  · have hin : ∀ new, s = some new → new.id_ ∈ w.services_ := fun new hs =>
      not_not.mp fun hn => hfree ⟨new, hs, hn⟩
    rw [finish_refused hin]
    exact ⟨rfl, fun _ _ => rfl, fun new hs hn => absurd (hin new hs) hn⟩

theorem destroy_services {s : Service} {serviceid sender : UInt32} {sessionid : Int32}
    {removal : Removal} (h : w.destroy fresh router s serviceid sender sessionid = some removal) :
    removal.worker.workerid_ = w.workerid_ ∧
      removal.worker.services_ = w.services_.erase serviceid := by
  unfold Worker.destroy at h
  obtain ⟨content, -, h⟩ := Option.bind_eq_some_iff.mp h
  obtain ⟨buf, -, h⟩ := Option.bind_eq_some_iff.mp h
  obtain ⟨buf', -, h⟩ := Option.bind_eq_some_iff.mp h
  obtain rfl := Option.some.inj h
  dsimp only
  split <;> exact ⟨rfl, rfl⟩

/-- A removal takes this id out, and nothing else. -/
theorem removeService_services {serviceid sender : UInt32} {sessionid : Int32} {removal : Removal}
    (h : w.removeService fresh router serviceid sender sessionid = some removal) :
    removal.worker.workerid_ = w.workerid_ ∧ ∀ other, other ≠ serviceid →
      removal.worker.services_.lookup other = w.services_.lookup other := by
  obtain ⟨r, hr, rfl⟩ := Option.map_eq_some_iff.mp h
  have hsettle : r.settle.worker.workerid_ = r.worker.workerid_ ∧
      r.settle.worker.services_ = r.worker.services_ := by
    unfold Removal.settle
    split <;> exact ⟨rfl, rfl⟩
  rw [hsettle.1, hsettle.2]
  split at hr
  next s hs =>
    obtain ⟨hid, hservices⟩ := destroy_services hr
    rw [hservices]
    exact ⟨hid, fun other hne => AList.lookup_erase_ne hne⟩
  next hnone =>
    obtain ⟨content, -, rfl⟩ := Option.map_eq_some_iff.mp hr
    exact ⟨rfl, fun _ _ => rfl⟩

/-! ## The invariant -/

/-- The worker has a unique service of this id and name, or is about to add it. -/
def Site.Has (site : Site router) (i : Fin router.workers) (name : List UInt8) (serviceid : UInt32) :
    Prop :=
  (∃ s, (site.core.workers_ i).services_.lookup serviceid = some s ∧ s.unique_ = true ∧
      s.name_ = name) ∨
    ∃ c s, site.pc i = .adding c (some s) ∧ s.id_ = serviceid ∧ s.unique_ = true ∧ s.name_ = name

structure Registered (site : Site router) : Prop where
  ids : ∀ i, (site.core.workers_ i).workerid_ = UInt8.ofNat (i.val + 1)
  names : ∀ name serviceid, site.core.unique_services_.lookup name = some serviceid →
    ∃ i : Fin router.workers, (workerId serviceid).toNat = i.val + 1 ∧ site.Has i name serviceid
  free : ∀ i c s, site.pc i = .adding c (some s) → s.unique_ = true →
    s.id_ ∉ (site.core.workers_ i).services_

variable {site site' : Site router} {i : Fin router.workers} {pc : Pc}

theorem has_put_of_ne {j : Fin router.workers} {name : List UInt8} {serviceid : UInt32} (hj : j ≠ i) :
    (site.put i w pc).Has j name serviceid ↔ site.Has j name serviceid := by
  unfold Site.Has Site.put Core.setWorker
  dsimp only
  rw [Function.update_of_ne hj, Function.update_of_ne hj]

/-- A task of one worker keeps the invariant if that worker keeps its unique services. -/
theorem Registered.put (h : Registered site) (hid : w.workerid_ = (site.core.workers_ i).workerid_)
    (hhas : ∀ name serviceid, site.Has i name serviceid → (site.put i w pc).Has i name serviceid)
    (hfree : ∀ c s, pc = .adding c (some s) → s.unique_ = true → s.id_ ∉ w.services_) :
    Registered (site.put i w pc) := by
  refine ⟨fun j => ?_, fun name serviceid hname => ?_, fun j c s hpc hunique => ?_⟩
  · by_cases hj : j = i
    · subst hj
      show (Function.update site.core.workers_ j w j).workerid_ = _
      rw [Function.update_self, hid]
      exact h.ids j
    · show (Function.update site.core.workers_ i w j).workerid_ = _
      rw [Function.update_of_ne hj]
      exact h.ids j
  · obtain ⟨j, hj, hhas'⟩ := h.names name serviceid hname
    refine ⟨j, hj, ?_⟩
    by_cases hji : j = i
    · subst hji
      exact hhas name serviceid hhas'
    · exact (has_put_of_ne hji).mpr hhas'
  · unfold Site.put Core.setWorker at hpc ⊢
    dsimp only at hpc ⊢
    by_cases hj : j = i
    · subst hj
      rw [Function.update_self] at hpc ⊢
      exact hfree c s hpc hunique
    · rw [Function.update_of_ne hj] at hpc ⊢
      exact h.free j c s hpc hunique

theorem has_put_self {name : List UInt8} {serviceid : UInt32} :
    (site.put i w pc).Has i name serviceid ↔
      (∃ s, w.services_.lookup serviceid = some s ∧ s.unique_ = true ∧ s.name_ = name) ∨
        ∃ c s, pc = .adding c (some s) ∧ s.id_ = serviceid ∧ s.unique_ = true ∧ s.name_ = name := by
  unfold Site.Has Site.put Core.setWorker
  dsimp only
  rw [Function.update_self, Function.update_self]

/-- Between two tasks a worker has its unique services in `services_`. -/
theorem has_idle {name : List UInt8} {serviceid : UInt32} (hpc : site.pc i = .idle) :
    site.Has i name serviceid ↔ ∃ s, (site.core.workers_ i).services_.lookup serviceid = some s ∧
      s.unique_ = true ∧ s.name_ = name := by
  unfold Site.Has
  rw [hpc]
  exact or_iff_left nofun

/-- A new entry is that of the service that the worker is about to add. -/
theorem Registered.register {name : List UInt8} {serviceid : UInt32} (h : Registered site)
    (hworker : (workerId serviceid).toNat = i.val + 1) (hhas : site.Has i name serviceid) :
    Registered ⟨{ site.core with
      unique_services_ := site.core.unique_services_.insert name serviceid }, site.pc⟩ := by
  refine ⟨h.ids, fun other id hlookup => ?_, h.free⟩
  by_cases hname : other = name
  · subst hname
    have hid : some serviceid = some id := (AList.lookup_insert _).symm.trans hlookup
    obtain rfl := Option.some.inj hid
    exact ⟨i, hworker, hhas⟩
  · exact h.names other id ((AList.lookup_insert_ne hname).symm.trans hlookup)

theorem Registered.finish {s : Option Service} (h : Registered site) (hpc : site.pc i = .adding c s) :
    Registered (site.put i ((site.core.workers_ i).finish fresh router serverState c s).1 .idle) := by
  obtain ⟨hid, hold, hnew⟩ := finish_services fresh router serverState
    (site.core.workers_ i) c s
  refine h.put hid (fun name serviceid hhas => has_put_self.mpr (.inl ?_)) nofun
  rcases hhas with ⟨s', hs', hunique, hname⟩ | ⟨c', s', hpc', hserviceid, hunique, hname⟩
  · refine ⟨s', (hold serviceid ?_).trans hs', hunique, hname⟩
    rw [← AList.lookup_isSome, hs']
    rfl
  · have hs : s = some s' := by
      rw [hpc] at hpc'
      exact (Pc.adding.inj hpc').2
    subst hs
    obtain ⟨added, hlookup, hunique', hname'⟩ := hnew s' rfl (h.free i c s' hpc hunique)
    exact ⟨added, hserviceid ▸ hlookup, hunique'.trans hunique, hname'.trans hname⟩

theorem Registered.remove {serviceid sender : UInt32} {sessionid : Int32} {removal : Removal}
    (h : Registered site) (hpc : site.pc i = .idle)
    (hkeeps : KeepsNames site (.remove i fresh serviceid sender sessionid))
    (hremove : (site.core.workers_ i).removeService fresh router serviceid sender sessionid =
      some removal) :
    Registered (site.put i removal.worker .idle) := by
  obtain ⟨hid, hother⟩ := removeService_services hremove
  refine h.put hid (fun name other hhas => has_put_self.mpr (.inl ?_)) nofun
  obtain ⟨s, hs, hunique, hname⟩ := (has_idle hpc).mp hhas
  have hne : other ≠ serviceid := by
    rintro rfl
    exact Bool.noConfusion (hunique.symm.trans (hkeeps s hs))
  exact ⟨s, (hother other hne).trans hs, hunique, hname⟩

/-- After the first half of a creation, as long as nothing was registered. -/
theorem Registered.adding {uuid : UInt32} {s : Option Service} (h : Registered site)
    (hpc : site.pc i = .idle)
    (hfree : ∀ new, s = some new → new.unique_ = true →
      new.id_ ∉ (site.core.workers_ i).services_) :
    Registered (site.put i { site.core.workers_ i with uuid_ := uuid } (.adding c s)) := by
  refine h.put rfl (fun name serviceid hhas => has_put_self.mpr (.inl ?_)) ?_
  · exact (has_idle hpc).mp hhas
  · rintro c' new ⟨⟩ hunique
    exact hfree new rfl hunique

theorem workerId_search (h : Registered site) :
    (workerId ((site.core.workers_ i).search MAX_UUID 0).1).toNat = i.val + 1 := by
  obtain ⟨-, ⟨k, hk⟩, -⟩ := search_max (site.core.workers_ i)
  have hlt := i.isLt
  have hle := router.workers_le
  rw [hk, Worker.candidate, workerId_idOf, h.ids, UInt8.toNat_toUInt32]
  show (i.val + 1) % 2 ^ 8 = i.val + 1
  omega

theorem Registered.create (h : Registered site) (hpc : site.pc i = .idle)
    (hkeeps : KeepsNames site (.create i c)) :
    let r := (site.core.workers_ i).create site.core.unique_services_ c
    Registered (Site.put ⟨{ site.core with unique_services_ := r.2.2 }, site.pc⟩ i r.2.1
      (.adding c r.1)) := by
  intro r
  by_cases hpasses : Passes (site.core.workers_ i) site.core.unique_services_ c
  · obtain ⟨⟨uuid, huuid⟩, -, hiff⟩ := search_max (site.core.workers_ i)
    have hr : r = _ := create_passes hpasses
    rw [hr, huuid]
    have hadding : Registered (site.put i { site.core.workers_ i with uuid_ := uuid }
        (.adding c (some (c.service ((site.core.workers_ i).search MAX_UUID 0).1)))) := by
      refine h.adding hpc ?_
      rintro new ⟨⟩ hunique
      exact mt hiff.mp (hkeeps hunique hpasses)
    cases hunique : c.unique with
    | false => exact hadding
    | true =>
      refine hadding.register (i := i) (workerId_search h) (has_put_self.mpr (.inr ?_))
      exact ⟨c, _, rfl, rfl, hunique, rfl⟩
  · obtain ⟨uuid, hcreate⟩ := create_fails hpasses
    have hr : r = _ := hcreate
    rw [hr]
    exact h.adding hpc nofun

theorem registered_start : Registered (Site.start router) :=
  ⟨fun _ => rfl, nofun, nofun⟩

theorem Registered.step {task : Task router} (h : Registered site) (hkeeps : KeepsNames site task)
    (hstep : site.step task = some site') : Registered site' := by
  unfold Site.step at hstep
  cases task with
  | create i c =>
    dsimp only at hstep
    split at hstep
    next hpc =>
      obtain rfl := Option.some.inj hstep
      exact h.create hpc hkeeps
    · cases hstep
  | finish i fresh serverState =>
    dsimp only at hstep
    split at hstep
    · cases hstep
    next c s hpc =>
      obtain rfl := Option.some.inj hstep
      exact h.finish hpc
  | remove i fresh serviceid sender sessionid =>
    dsimp only at hstep
    split at hstep
    next hpc =>
      obtain ⟨removal, hremove, rfl⟩ := Option.map_eq_some_iff.mp hstep
      exact h.remove hpc hkeeps hremove
    · cases hstep

theorem registered_of_reach (h : ((registrySystem router).restrict KeepsNames).Reach site) :
    Registered site := by
  refine System.Reach.invariant (fun site hstart => ?_) (fun site task site' _ hs hstep => ?_) h
  · exact hstart ▸ registered_start
  · exact hs.step hstep.1 hstep.2

/-- Between tasks, the names are those of live unique services, as long as no unique service is
removed and each gets an id that was free. -/
theorem namesLive_of_reach (h : ((registrySystem router).restrict KeepsNames).Reach site)
    (hidle : ∀ i, site.pc i = .idle) : NamesLive site := by
  refine namesLive_of_live fun name serviceid hlookup => ?_
  obtain ⟨i, hi, hhas⟩ := (registered_of_reach h).names name serviceid hlookup
  exact ⟨i, hi, (has_idle (hidle i)).mp hhas⟩

/-! ## A unique service that goes -/

/-- A unique service "db", of a type and a configuration that are right. -/
def database : Creation := ⟨true, true, ascii "db", true, 0, 0⟩

/-- The only worker has added it. -/
def withDatabase : Site oneWorker :=
  let adding := (Site.start oneWorker).step (.create onlyWorker database)
  let added := adding.bind fun site => site.step (.finish onlyWorker (fun _ => 0) .ready)
  added.getD (Site.start oneWorker)

theorem reach_withDatabase :
    ((registrySystem oneWorker).restrict KeepsNames).Reach withDatabase := by
  have h₀ : ((registrySystem oneWorker).restrict KeepsNames).Reach (Site.start oneWorker) :=
    System.Reach.start rfl
  have hfree : ¬((Site.start oneWorker).core.workers_ onlyWorker).Exhausted := fun h =>
    absurd (h 0 (by decide)) (by decide)
  have h₁ := h₀.step (a := Task.create onlyWorker database) ⟨fun _ _ => hfree, rfl⟩
  exact h₁.step (a := Task.finish onlyWorker (fun _ => 0) .ready) ⟨trivial, rfl⟩

theorem namesLive_withDatabase :
    getUniqueService withDatabase.core.unique_services_ (ascii "db") = 0x01000001 ∧
      NamesLive withDatabase :=
  ⟨by decide +kernel, namesLive_of_reach reach_withDatabase fun i => by
    rw [Fin.fin_one_eq_zero i]
    rfl⟩

/-- The service is removed, and its name is not. -/
theorem not_namesLive : ¬∀ (router : Router) (site : Site router), (registrySystem router).Reach site →
    (∀ i, site.pc i = .idle) → NamesLive site := by
  intro h
  have hremoval : ((withDatabase.core.workers_ onlyWorker).removeService (fun _ => 0) oneWorker
      0x01000001 0 0).map (fun r => r.worker.services_.lookup 0x01000001) = some none := by
    decide +kernel
  obtain ⟨removal, hremove, hgone⟩ := Option.map_eq_some_iff.mp hremoval
  have hstep : withDatabase.step (.remove onlyWorker (fun _ => 0) 0x01000001 0 0) =
      some (withDatabase.put onlyWorker removal.worker .idle) := congrArg (Option.map _) hremove
  have hreach : (registrySystem oneWorker).Reach _ := reach_withDatabase.of_restrict.step hstep
  have hlookup : withDatabase.core.unique_services_.lookup (ascii "db") = some 0x01000001 := by
    decide +kernel
  obtain ⟨i, -, s, hs, -⟩ := (h _ _ hreach fun i => by
    rw [Fin.fin_one_eq_zero i]
    rfl).live (ascii "db") 0x01000001 hlookup
  rw [Fin.fin_one_eq_zero i] at hs
  have hnone : none = some s := hgone.symm.trans hs
  cases hnone

end HappyServer.Services
