import HappyServer.Lib.Tally
import HappyServer.Services.Shutdown

/-!
# The wait for the configured services (`happy.cpp`, `server::service_count`)

The main thread waits until `service_count()` has reached the number of configured services.  A
creation that comes to nothing and a service that is removed are missing in that count for ever.

* `ahead`: how many of the configured creations have still to run.
* `Sparing`: while the server is in `init`, a service is lost only if there is one more than needed.
* `owed_of_reach`: then the services and the configured creations ahead are enough.
-/

namespace HappyServer.Services

open Server

namespace Station

variable {serverState : State} {t t' : Station}

/-- The configured creations among the tasks. -/
def Task.ahead : Task → Nat
  | .addService a => a.configured.toNat
  | _ => 0

def Pc.ahead : Pc → Nat
  | .adding a _ => a.configured.toNat
  | _ => 0

/-- The configured creations that this worker has still to run, or is running. -/
def ahead (t : Station) : Nat := (t.queue.map Task.ahead).sum + t.pc.ahead

/-- The next step of the thread removes a service, or gives a configured creation up. -/
def loses (t : Station) : Bool :=
  match t.pc, t.queue with
  | .idle, .removeService serviceid _ _ :: _ => serviceid ∈ t.worker.services_
  | .adding a new, _ => a.configured && t.Refused new
  | _, _ => false

def load (t : Station) : Nat := t.size + t.ahead

theorem StartedFrom.load (hfrom : StartedFrom t t') : t'.load = t.load := by
  obtain ⟨services, starts, rfl, hperm⟩ := hfrom
  show services.keys.length + t.ahead = t.worker.services_.keys.length + t.ahead
  rw [hperm.length_eq]

/-- The thread takes a task. -/
theorem load_next {task : Task} {queue : List Task} (hqueue : t.queue = task :: queue) :
    t.load = Station.load { t with queue := queue } + task.ahead := by
  unfold load ahead
  rw [hqueue, List.map_cons, List.sum_cons]
  show t.size + (task.ahead + (queue.map Task.ahead).sum + t.pc.ahead) =
    t.size + ((queue.map Task.ahead).sum + t.pc.ahead) + task.ahead
  omega

/-- Only a step that loses something makes the load smaller, and by one. -/
theorem Worked.load (hwork : Worked serverState t t') :
    t.load ≤ t'.load + 1 ∧ (t.loses = false → t.load ≤ t'.load) := by
  have hkept : t'.load = t.load → t.load ≤ t'.load + 1 ∧ (t.loses = false → t.load ≤ t'.load) :=
    fun heq => ⟨Nat.le_succ_of_le heq.ge, fun _ => heq.ge⟩
  cases hwork with
  | begin hpc =>
    apply hkept
    unfold Station.load ahead
    rw [hpc]
    rfl
  | @create a queue unique hpc hstate hqueue =>
    obtain ⟨⟨uuid, huuid⟩, -⟩ := create_spec t.worker unique a.creation
    apply hkept
    rw [load_next hqueue, huuid]
    show t.size + ((queue.map Task.ahead).sum + a.configured.toNat) =
      t.size + ((queue.map Task.ahead).sum + t.pc.ahead) + a.configured.toNat
    rw [hpc]
    exact (Nat.add_assoc _ _ _).symm
  | @remove serviceid _ _ queue _ _ _ hpc hstate hqueue hremove =>
    have hloses : t.loses = decide (serviceid ∈ t.worker.services_) := by
      simp only [loses, hpc, hqueue]
    have hsize := length_erase t.worker.services_ serviceid
    rw [removeService_worker hremove, hloses, load_next hqueue]
    show t.worker.services_.keys.length + ahead { t with queue := queue } ≤
        (t.worker.services_.erase serviceid).keys.length + ahead { t with queue := queue } + 1 ∧
      (_ → t.worker.services_.keys.length + ahead { t with queue := queue } ≤
        (t.worker.services_.erase serviceid).keys.length + ahead { t with queue := queue })
    by_cases hin : serviceid ∈ t.worker.services_
    · rw [if_pos hin] at hsize
      exact ⟨by omega, fun hout => absurd hin (of_decide_eq_false hout)⟩
    · rw [if_neg hin] at hsize
      exact ⟨by omega, fun _ => by omega⟩
  | @stop queue hpc hstate hqueue =>
    obtain ⟨state, atStop, exits, heq⟩ := stop_from { t with queue := queue }
    apply hkept
    rw [heq]
    exact (load_next hqueue).symm
  | @start queue hpc hstate hqueue =>
    exact hkept ((start_from { t with queue := queue }).load.trans (load_next hqueue).symm)
  | other hpc hstate hqueue => exact hkept (load_next hqueue).symm
  | @emplace a new hpc =>
    have hload : t.load = t.size + ((t.queue.map Task.ahead).sum + a.configured.toNat) := by
      unfold Station.load ahead
      rw [hpc]
      rfl
    have hone : a.configured.toNat ≤ 1 := Bool.toNat_le _
    by_cases hrefused : t.Refused new
    · have hloses : t.loses = a.configured := by
        simp only [loses, hpc, decide_eq_true hrefused, Bool.and_true]
      rw [emplace_refused hrefused, hload, hloses]
      show _ ≤ t.size + ((t.queue.map Task.ahead).sum + 0) + 1 ∧
        (_ → _ ≤ t.size + ((t.queue.map Task.ahead).sum + 0))
      refine ⟨by omega, fun hother => ?_⟩
      rw [hother]
      exact le_rfl
    · obtain ⟨s, number, rfl, hfree⟩ := not_refused hrefused
      have hsize : (t.worker.services_.insert s.id_ { s with ok_ := true }).keys.length = t.size + 1 :=
        length_insert hfree
      rw [emplace_added hfree, hload]
      show _ ≤ (t.worker.services_.insert s.id_ { s with ok_ := true }).keys.length +
          ((t.queue.map Task.ahead).sum + 0) + 1 ∧
        (_ → _ ≤ (t.worker.services_.insert s.id_ { s with ok_ := true }).keys.length +
          ((t.queue.map Task.ahead).sum + 0))
      rw [hsize]
      exact ⟨by omega, fun _ => by omega⟩
  | @look a serviceid hpc =>
    have hbefore : t.load = t.size + (t.queue.map Task.ahead).sum := by
      unfold Station.load ahead
      rw [hpc]
      rfl
    obtain ⟨services, starts, heq, hperm⟩ := look_from serverState t serviceid
    apply hkept
    rw [heq, hbefore]
    show services.keys.length + ((t.queue.map Task.ahead).sum + 0) =
      t.size + (t.queue.map Task.ahead).sum
    rw [hperm.length_eq]
    rfl

end Station

namespace Host

variable {router : Router} {ι : Type} [DecidableEq ι] {configs : List Request}
  {s s' : Host router ι} {a : Action router ι}

def Call.ahead : Call router → Nat
  | .scan _ _ _ a => a.configured.toNat
  | .post _ a => a.configured.toNat
  | _ => 0

def Main.ahead (configs : List Request) : Main router → Nat
  | .making _ => configs.length
  | .asking rest => rest.length
  | _ => 0

/-- The configured creations that have still to run. -/
def ahead (configs : List Request) (s : Host router ι) : Nat :=
  s.main.ahead configs + (s.call none).ahead + ∑ i, (s.station i).ahead

/-- `service_count()`, if nothing happens while it runs. -/
def serviceCount (s : Host router ι) : UInt32 :=
  (List.finRange router.workers).foldl (fun count i => count + (s.station i).worker.count_) 0

/-- The condition of the wait loop. -/
def Waits (configs : List Request) (s : Host router ι) : Prop :=
  s.state_ = .init ∧ s.serviceCount.toNat < configs.length

/-- The services, and the configured creations that have still to run. -/
def load (configs : List Request) (s : Host router ι) : Nat :=
  (∑ i, (s.station i).size) + s.ahead configs

/-- While the server is in `init`, the step loses something only if there is more than needed. -/
def Sparing (configs : List Request) (s : Host router ι) : Action router ι → Prop
  | .work i _ => s.state_ = .init → (s.station i).loses = true → configs.length < s.load configs
  | _ => True

omit [DecidableEq ι] in
theorem load_eq (configs : List Request) (s : Host router ι) :
    s.load configs = s.main.ahead configs + (s.call none).ahead + ∑ i, (s.station i).load := by
  unfold load ahead Station.load
  rw [Finset.sum_add_distrib]
  omega

omit [DecidableEq ι] in
theorem sum_setStation (s : Host router ι) (i : Fin router.workers) (t : Station) :
    (∑ j, ((s.setStation i t).station j).load) + (s.station i).load =
      (∑ j, (s.station j).load) + t.load :=
  sum_update_add Station.load s.station i t

theorem post_load (t : Station) (task : Station.Task) : (t.post task).load = t.load + task.ahead := by
  show t.size + (((t.queue ++ [task]).map Station.Task.ahead).sum + t.pc.ahead) =
    t.size + ((t.queue.map Station.Task.ahead).sum + t.pc.ahead) + task.ahead
  rw [List.map_append, List.sum_append, List.map_singleton, List.sum_singleton]
  omega

/-- Nothing is lost on the way to the workers. -/
theorem Stepped.load (h : Stepped configs s a s') : s.load configs ≤ s'.load configs ∨
    ∃ i fresh, a = .work i fresh ∧ (s.station i).loses = true ∧
      s.load configs ≤ s'.load configs + 1 := by
  have hnew : ∀ (caller : Option ι) (r : Request) (configured : Bool),
      (∑ j, ((s.newService caller r configured).station j).load) = ∑ j, (s.station j).load := by
    intro caller r configured
    rcases newService_cases s caller r configured with ⟨i, heq⟩ | heq
    · have hsum := sum_setStation s i (s.station i).claim
      have hclaim : (s.station i).claim.load = (s.station i).load := rfl
      rw [heq]
      show (∑ j, ((s.setStation i (s.station i).claim).station j).load) = _
      omega
    · rw [heq]
      rfl
  -- a call goes on without its creation being lost
  have hcall : ∀ {thread : Option ι} {c d : Call router}, s.call thread = c → c.ahead ≤ d.ahead →
      (s.call none).ahead ≤ (Function.update s.call thread d none).ahead := by
    intro thread c d hc hle
    by_cases hnone : none = thread
    · rw [← hnone, Function.update_self, hnone, hc]
      exact hle
    · rw [Function.update_of_ne hnone]
  have hgo : ∀ {thread : Option ι} {c : Call router} (d : Call router), s.call thread = c →
      c.ahead ≤ d.ahead → s.main.ahead configs + (s.call none).ahead + (∑ j, (s.station j).load) ≤
        s.main.ahead configs + (Function.update s.call thread d none).ahead + ∑ j, (s.station j).load :=
    fun d hc hle => Nat.add_le_add_right (Nat.add_le_add_left (hcall hc hle) _) _
  rw [load_eq, load_eq]
  cases h with
  | @begin i rest hidle hmain hpc =>
    have hsum := sum_setStation s i { s.station i with pc := .begun }
    have hload : Station.load { s.station i with pc := .begun } = (s.station i).load := by
      unfold Station.load Station.ahead
      rw [hpc]
      rfl
    refine .inl ?_
    show s.main.ahead configs + (s.call none).ahead + _ ≤ s.main.ahead configs + (s.call none).ahead +
      ∑ j, ((s.setStation i { s.station i with pc := .begun }).station j).load
    omega
  | made hidle hmain =>
    rw [hmain]
    exact .inl le_rfl
  | inited hidle hmain =>
    rw [hmain]
    exact .inl le_rfl
  | @ask r rest hidle hmain =>
    have hsum := hnew none r true
    have hasked : ((s.newService none r true).call none).ahead = 1 := by
      rcases newService_cases s none r true with ⟨i, heq⟩ | heq
      · rw [heq, setCall_self]
        rfl
      · rw [heq, setCall_self]
        rfl
    refine .inl ?_
    rw [hmain, hidle]
    show rest.length + 1 + 0 + _ ≤ rest.length + ((s.newService none r true).call none).ahead +
      ∑ j, ((s.newService none r true).station j).load
    omega
  | asked hidle hmain =>
    rw [hmain]
    exact .inl le_rfl
  | test hidle hmain =>
    rw [hmain]
    exact .inl (Nat.add_le_add_right (Nat.add_le_add_right (Nat.zero_le _) _) _)
  | count hidle hmain =>
    rw [hmain]
    exact .inl le_rfl
  | counted hidle hmain =>
    rw [hmain]
    exact .inl (Nat.add_le_add_right (Nat.add_le_add_right (Nat.zero_le _) _) _)
  | store hidle hmain =>
    rw [hmain]
    exact .inl le_rfl
  | @postStart i rest hidle hmain =>
    have hsum := sum_setStation s i ((s.station i).post .start)
    rw [post_load] at hsum
    refine .inl ?_
    rw [hmain]
    show 0 + (s.call none).ahead + _ ≤ 0 + (s.call none).ahead +
      ∑ j, ((s.setStation i ((s.station i).post .start)).station j).load
    omega
  | posted hidle hmain =>
    rw [hmain]
    exact .inl le_rfl
  | joined hidle hmain hexited =>
    rw [hmain]
    exact .inl le_rfl
  | @newService i r hidle =>
    refine .inl ?_
    have hother : (s.newService (some i) r false).call none = s.call none := by
      rcases newService_cases s (some i) r false with ⟨j, heq⟩ | heq
      · rw [heq]
        exact setCall_of_ne _ _ nofun
      · rw [heq]
        exact setCall_of_ne _ _ nofun
    rw [newService_main, hother, hnew]
  | exchange c hidle hc => exact .inl (hgo c hidle (Nat.zero_le _))
  | @look thread n free i rest ask hscan =>
    exact .inl (hgo (.scan n (if (s.station i).worker.shared_ then free ++ [i] else free) rest ask)
      hscan le_rfl)
  | @chosen thread n free ask hscan => exact .inl (hgo (.post (choose n free) ask) hscan le_rfl)
  | @enqueue thread i ask hpost =>
    have hsum := sum_setStation s i ((s.station i).post (.addService ask))
    rw [post_load] at hsum
    refine .inl ?_
    show s.main.ahead configs + (s.call none).ahead + _ ≤
      s.main.ahead configs + (Function.update s.call thread .idle none).ahead +
        ∑ j, ((s.setStation i ((s.station i).post (.addService ask))).station j).load
    have htask : (Station.Task.addService ask).ahead = ask.configured.toNat := rfl
    by_cases hnone : none = thread
    · rw [← hnone] at hpost ⊢
      rw [Function.update_self, hpost]
      show s.main.ahead configs + ask.configured.toNat + _ ≤ s.main.ahead configs + 0 + _
      omega
    · rw [Function.update_of_ne hnone]
      omega
  | @stopOne thread i rest hstop =>
    have hsum := sum_setStation s i ((s.station i).post .stop)
    have hthread := hcall (d := .stop rest) hstop le_rfl
    rw [post_load] at hsum
    refine .inl ?_
    show s.main.ahead configs + (s.call none).ahead + _ ≤
      s.main.ahead configs + (Function.update s.call thread (.stop rest) none).ahead +
        ∑ j, ((s.setStation i ((s.station i).post .stop)).station j).load
    omega
  | stopped hstop => exact .inl (hgo .idle hstop le_rfl)
  | @post i task hfree =>
    have hsum := sum_setStation s i ((s.station i).post task)
    rw [post_load] at hsum
    refine .inl ?_
    show s.main.ahead configs + (s.call none).ahead + _ ≤ s.main.ahead configs + (s.call none).ahead +
      ∑ j, ((s.setStation i ((s.station i).post task)).station j).load
    omega
  | @work i fresh t unique hwork =>
    have hsum := sum_setStation s i t
    obtain ⟨hone, hkept⟩ := hwork.load
    show _ ≤ s.main.ahead configs + (s.call none).ahead + ∑ j, ((s.setStation i t).station j).load ∨ _
    by_cases hloses : (s.station i).loses = true
    · refine .inr ⟨i, fresh, rfl, hloses, ?_⟩
      show _ ≤ s.main.ahead configs + (s.call none).ahead +
        (∑ j, ((s.setStation i t).station j).load) + 1
      omega
    · have := hkept (Bool.eq_false_iff.mpr hloses)
      refine .inl ?_
      omega

/-! ## The wait -/

/-- Only `server::init` stores `init`. -/
theorem Stepped.init (h : Stepped configs s a s') (hinit : s'.state_ = .init) :
    s.state_ = .init ∨ s'.main = .asking configs := by
  cases h with
  | inited hidle hmain => exact .inr rfl
  | ask hidle hmain =>
    refine .inl ?_
    rwa [← newService_state s none _ true]
  | newService r hidle =>
    rw [newService_state] at hinit
    exact .inl hinit
  | store hidle hmain => cases hinit
  | joined hidle hmain hexited => cases hinit
  | exchange c hidle hc => cases hinit
  | _ => exact .inl hinit

theorem owed_of_reach (h : ((host router ι configs).restrict (Sparing configs)).Reach s)
    (hinit : s.state_ = .init) : configs.length ≤ s.load configs := by
  revert hinit
  refine h.invariant (P := fun s => s.state_ = .init → configs.length ≤ s.load configs) ?_ ?_
  · rintro s rfl hinit
    cases hinit
  · rintro s a s' - hs ⟨hsparing, hstep⟩ hinit
    have hstepped := step_cases hstep
    rcases hstepped.init hinit with hbefore | hmain
    · have hle := hs hbefore
      rcases hstepped.load with hload | ⟨i, fresh, rfl, hloses, hload⟩
      · omega
      · have hmore : configs.length < s.load configs := hsparing hbefore hloses
        omega
    · rw [load_eq, hmain]
      show configs.length ≤ configs.length + _ + _
      omega

/-- The sum of the counters stays below `2 ^ 32`. -/
theorem serviceCount_toNat (h : (host router ι configs).Reach s) :
    s.serviceCount.toNat = ∑ i, (s.station i).size := by
  have hcount : ∀ i, (s.station i).worker.count_.toNat = (s.station i).size := fun i =>
    (sound_of_reach h i).count
  have hle : ∀ i, (s.station i).size ≤ MAX_UUID := fun i => (sound_of_reach h i).size_le
  have hfold : ∀ (l : List (Fin router.workers)) (count : UInt32),
      count.toNat + l.length * MAX_UUID < 2 ^ 32 →
      (l.foldl (fun count i => count + (s.station i).worker.count_) count).toNat =
        count.toNat + (l.map fun i => (s.station i).size).sum := by
    intro l
    induction l with
    | nil => exact fun count _ => rfl
    | cons i l ih =>
      intro count hbound
      have hi := hle i
      rw [List.length_cons, Nat.succ_mul] at hbound
      have hadd : (count + (s.station i).worker.count_).toNat = count.toNat + (s.station i).size := by
        rw [UInt32.toNat_add, hcount i]
        omega
      rw [List.foldl_cons, ih _ (by omega), hadd, List.map_cons, List.sum_cons, Nat.add_assoc]
  have hworkers := router.workers_le
  have hbound : (0 : UInt32).toNat + (List.finRange router.workers).length * MAX_UUID < 2 ^ 32 := by
    rw [List.length_finRange]
    show 0 + router.workers * 0xFFFF < 2 ^ 32
    omega
  rw [serviceCount, hfold _ 0 hbound, Fin.sum_univ_def]
  exact Nat.zero_add _

theorem waits_iff (h : (host router ι configs).Reach s) (hahead : s.ahead configs = 0) :
    s.Waits configs ↔ s.state_ = .init ∧ s.load configs < configs.length := by
  rw [Waits, serviceCount_toNat h, load, hahead]
  exact Iff.rfl

theorem leaves_wait (h : ((host router ι configs).restrict (Sparing configs)).Reach s)
    (hahead : s.ahead configs = 0) : ¬s.Waits configs := by
  rw [waits_iff h.of_restrict hahead]
  rintro ⟨hinit, hfew⟩
  have howed := owed_of_reach h hinit
  omega

/-- The step loses nothing. -/
private def spares (s : Host oneWorker Unit) : Action oneWorker Unit → Bool
  | .work i _ => !(s.station i).loses
  | _ => true

/-- The only configured service has been added. -/
theorem leaves_wait_one : ∃ s : Host oneWorker Unit, s.state_ = .init ∧ ¬s.Waits [anywhere] := by
  obtain ⟨s, hrun, hs⟩ := Option.map_eq_some_iff.mp (show
    (List.foldlM (fun s a => if spares s a then step [anywhere] s a else none) (make oneWorker Unit)
      oneAdded).map (fun s => (s.state_, s.ahead [anywhere])) = some (.init, 0) by
    decide +kernel)
  obtain ⟨hinit, hahead⟩ := Prod.mk.inj hs
  refine ⟨s, hinit, leaves_wait (System.Reach.foldlM (fun {s a s'} hstep => ?_)
    (System.Reach.start rfl) _ hrun) hahead⟩
  obtain ⟨hspares, hstep⟩ := Option.ite_none_right_eq_some.mp hstep
  refine ⟨?_, hstep⟩
  cases a with
  | work i fresh =>
    intro _ hloses
    simp [spares, hloses] at hspares
  | _ => trivial

/-- The only configured service is created, and quits before the main thread looks. -/
theorem not_leaves_wait : ¬∀ (configs : List Request) (s : Host oneWorker Unit),
    (host oneWorker Unit configs).Reach s → s.ahead configs = 0 → ¬s.Waits configs := by
  intro hall
  obtain ⟨s, hrun, hs⟩ := Option.map_eq_some_iff.mp (show
    (run [anywhere] (oneAdded ++ [.work onlyWorker fun _ => 0,
      .post onlyWorker (.removeService 0x01000001 0 0), .work onlyWorker fun _ => 0, .main])).map
      (fun s => (s.ahead [anywhere], s.state_, s.serviceCount)) = some (0, .init, 0) by
    decide +kernel)
  obtain ⟨hahead, hs⟩ := Prod.mk.inj hs
  obtain ⟨hinit, hcount⟩ := Prod.mk.inj hs
  refine hall _ s (reach_run hrun) hahead ⟨hinit, ?_⟩
  rw [hcount]
  decide

end Host

end HappyServer.Services
