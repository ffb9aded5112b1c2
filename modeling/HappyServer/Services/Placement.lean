import HappyServer.Services.Shutdown

/-!
# Workers that are kept for their services (`router::new_service`, `router::next_worker`)

`new_service` with the id of a worker clears the worker's flag `shared_` in the caller's thread and
then queues the creation.  Removals and refused creations that run in between write the flag again.

* `writes`: what a step is about to write to which flag.
* `Guarded`: no flag is set of a worker that has such a creation still ahead of it.
* `Steady`: no flag is written over what a `next_worker` under way has read.
-/

namespace HappyServer.Services

open Server

/-- With the id of a worker, and nothing is known that refuses it. -/
def Ask.promising (a : Ask) : Bool := a.explicit && a.creation.registered && a.creation.loads

namespace Station

variable {serverState : State} {t t' : Station}

/-- It has a service that was created with its id. -/
def Hosts (t : Station) : Prop := ∃ serviceid ∈ t.worker.services_, (t.origin serviceid).explicit = true

/-- What the thread writes to `shared_` next. -/
def writes (t : Station) : Option Bool :=
  match t.pc, t.queue with
  | .idle, .removeService serviceid _ _ :: _ =>
    if serviceid ∈ t.worker.services_ ∧ (t.worker.services_.erase serviceid).keys = [] then some true
    else none
  | .adding _ new, _ => if t.Refused new then some t.worker.isEmpty else none
  | _, _ => none

theorem Worked.shared (hwork : Worked serverState t t') :
    t'.worker.shared_ = t.writes.getD t.worker.shared_ := by
  cases hwork with
  | begin hpc =>
    have hwrites : t.writes = none := by simp only [writes, hpc]
    rw [hwrites]
    rfl
  | @create a queue unique hpc hstate hqueue =>
    obtain ⟨⟨uuid, huuid⟩, -⟩ := create_spec t.worker unique a.creation
    have hwrites : t.writes = none := by simp only [writes, hpc, hqueue]
    rw [hwrites, huuid]
    rfl
  | @remove serviceid _ _ queue _ _ _ hpc hstate hqueue hremove =>
    have hwrites : t.writes = if serviceid ∈ t.worker.services_ ∧
        (t.worker.services_.erase serviceid).keys = [] then some true else none := by
      simp only [writes, hpc, hqueue]
    rw [removeService_worker hremove, hwrites]
    show (t.worker.shared_ || (serviceid ∈ t.worker.services_ &&
      (t.worker.services_.erase serviceid).keys = [])) = _
    split
    next hlast => rw [decide_eq_true hlast.1, decide_eq_true hlast.2, Bool.and_true, Bool.or_true]; rfl
    next hmore =>
      rw [← Bool.decide_and, decide_eq_false hmore, Bool.or_false]
      rfl
  | @stop queue hpc hstate hqueue =>
    have hwrites : t.writes = none := by simp only [writes, hpc, hqueue]
    obtain ⟨state, atStop, exits, heq⟩ := stop_from { t with queue := queue }
    rw [hwrites, heq]
    rfl
  | @start queue hpc hstate hqueue =>
    have hwrites : t.writes = none := by simp only [writes, hpc, hqueue]
    obtain ⟨services, starts, heq, -⟩ := start_from { t with queue := queue }
    rw [hwrites, heq]
    rfl
  | other hpc hstate hqueue =>
    have hwrites : t.writes = none := by simp only [writes, hpc, hqueue]
    rw [hwrites]
    rfl
  | @emplace a new hpc =>
    have hwrites : t.writes = if t.Refused new then some t.worker.isEmpty else none := by
      simp only [writes, hpc]
    by_cases hrefused : t.Refused new
    · rw [emplace_refused hrefused, hwrites, if_pos hrefused]
      rfl
    · rw [hwrites, if_neg hrefused]
      obtain ⟨s, number, rfl, hfree⟩ := not_refused hrefused
      rw [emplace_added hfree]
      rfl
  | @look a serviceid hpc =>
    have hwrites : t.writes = none := by simp only [writes, hpc]
    obtain ⟨services, starts, heq, -⟩ := look_from serverState t serviceid
    rw [hwrites, heq]
    rfl

/-- It has a service that was created with its id, or the thread is about to add one. -/
def Taken (t : Station) : Prop := t.Hosts ∨ ∃ a p, t.pc = .adding a (some p) ∧ a.explicit = true

/-- It takes services, now or later. -/
def Open (t : Station) : Prop := t.worker.state_ = .init ∨ t.worker.state_ = .ready

theorem Hosts.of_started (hfrom : StartedFrom t t') (h : t'.Hosts) : t.Hosts := by
  obtain ⟨services, starts, rfl, hperm⟩ := hfrom
  obtain ⟨serviceid, hmem, hexplicit⟩ := h
  exact ⟨serviceid, AList.mem_keys.mpr (hperm.mem_iff.mp (AList.mem_keys.mp hmem)), hexplicit⟩

/-- A worker that is taken was so before, or the thread has taken the creation from the queue. -/
theorem Worked.taken (hwork : Worked serverState t t') (h : t'.Taken) :
    t.Taken ∨ t.Open ∧ ∃ a, .addService a ∈ t.queue ∧ a.promising = true := by
  cases hwork with
  | begin hpc =>
    rcases h with hhosts | ⟨a, p, ha, -⟩
    · exact .inl (.inl hhosts)
    · cases ha
  | @create a queue unique hpc hstate hqueue =>
    rcases h with hhosts | ⟨a', p, ha, hexplicit⟩
    · obtain ⟨⟨uuid, huuid⟩, -⟩ := create_spec t.worker unique a.creation
      rw [huuid] at hhosts
      exact .inl (.inl hhosts)
    · obtain ⟨rfl, hnew⟩ := Pc.adding.inj ha
      have hpasses : Passes t.worker unique a.creation := by
        by_contra hfails
        obtain ⟨uuid, hcreate⟩ := create_fails hfails
        rw [hcreate] at hnew
        cases hnew
      obtain ⟨hready, hregistered, hloads, -⟩ := hpasses
      refine .inr ⟨.inr hready, a, ?_, ?_⟩
      · rw [hqueue]
        exact List.mem_cons_self
      · rw [Ask.promising, hexplicit, hregistered, hloads]
        rfl
  | remove hpc hstate hqueue hremove =>
    rw [removeService_worker hremove] at h
    rcases h with ⟨serviceid, hmem, hexplicit⟩ | ⟨a, p, ha, -⟩
    · exact .inl (.inl ⟨serviceid, (AList.mem_erase.mp hmem).2, hexplicit⟩)
    · rw [show t.pc = .adding a (some p) from ha] at hpc
      cases hpc
  | @stop queue hpc hstate hqueue =>
    obtain ⟨state, atStop, exits, heq⟩ := stop_from { t with queue := queue }
    rw [heq] at h
    exact .inl h
  | @start queue hpc hstate hqueue =>
    have hfrom := start_from { t with queue := queue }
    rcases h with hhosts | ⟨a, p, ha, hexplicit⟩
    · have hbefore : Hosts { t with queue := queue } := hhosts.of_started hfrom
      exact .inl (.inl hbefore)
    · obtain ⟨services, starts, heq, -⟩ := hfrom
      rw [heq] at ha
      exact .inl (.inr ⟨a, p, ha, hexplicit⟩)
  | other hpc hstate hqueue => exact .inl h
  | @emplace a new hpc =>
    by_cases hrefused : t.Refused new
    · rw [emplace_refused hrefused] at h
      rcases h with hhosts | ⟨a', p, ha, -⟩
      · exact .inl (.inl hhosts)
      · cases ha
    · obtain ⟨s, number, rfl, hfree⟩ := not_refused hrefused
      rw [emplace_added hfree] at h
      rcases h with ⟨serviceid, hmem, hexplicit⟩ | ⟨a', p, ha, -⟩
      · dsimp only at hmem hexplicit
        by_cases heq : serviceid = s.id_
        · rw [heq, Function.update_self] at hexplicit
          exact .inl (.inr ⟨a, _, hpc, hexplicit⟩)
        · rw [Function.update_of_ne heq] at hexplicit
          exact .inl (.inl ⟨serviceid, ((AList.mem_insert _).mp hmem).resolve_left heq, hexplicit⟩)
      · cases ha
  | @look a serviceid hpc =>
    rcases h with hhosts | ⟨a', p, ha, -⟩
    · exact .inl (.inl (Hosts.of_started (look_from serverState t serviceid) hhosts))
    · cases ha

/-- The flag is set when the last service is gone. -/
theorem Worked.not_taken (hwork : Worked serverState t t') (hwrites : t.writes = some true) :
    ¬t'.Taken := by
  have hnil : t'.worker.services_.keys = [] ∧ t'.pc = .idle := by
    cases hwork with
    | @remove serviceid _ _ queue _ _ _ hpc hstate hqueue hremove =>
      rw [removeService_worker hremove]
      simp only [writes, hpc, hqueue, Option.ite_none_right_eq_some] at hwrites
      exact ⟨hwrites.1.2, hpc⟩
    | @emplace a new hpc =>
      simp only [writes, hpc, Option.ite_none_right_eq_some, Option.some.injEq] at hwrites
      rw [emplace_refused hwrites.1]
      exact ⟨isEmpty_iff.mp hwrites.2, rfl⟩
    | begin hpc => simp [writes, hpc] at hwrites
    | create unique hpc hstate hqueue => simp [writes, hpc, hqueue] at hwrites
    | stop hpc hstate hqueue => simp [writes, hpc, hqueue] at hwrites
    | start hpc hstate hqueue => simp [writes, hpc, hqueue] at hwrites
    | other hpc hstate hqueue => simp [writes, hpc, hqueue] at hwrites
    | look hpc => simp [writes, hpc] at hwrites
  obtain ⟨hkeys, hpc⟩ := hnil
  rintro (⟨serviceid, hmem, -⟩ | ⟨a, p, ha, -⟩)
  · exact keys_ne_nil hmem hkeys
  · rw [hpc] at ha
    cases ha

/-- The thread puts nothing into its queue. -/
theorem Worked.queue (hwork : Worked serverState t t') : t'.queue ⊆ t.queue := by
  cases hwork with
  | begin hpc => exact List.Subset.refl _
  | create unique hpc hstate hqueue =>
    rw [hqueue]
    exact List.subset_cons_self _ _
  | remove hpc hstate hqueue hremove =>
    rw [hqueue]
    exact List.subset_cons_self _ _
  | @stop queue hpc hstate hqueue =>
    obtain ⟨state, atStop, exits, heq⟩ := stop_from { t with queue := queue }
    rw [heq, hqueue]
    exact List.subset_cons_self _ _
  | @start queue hpc hstate hqueue =>
    obtain ⟨services, starts, heq, -⟩ := start_from { t with queue := queue }
    rw [heq, hqueue]
    exact List.subset_cons_self _ _
  | other hpc hstate hqueue =>
    rw [hqueue]
    exact List.subset_cons_self _ _
  | @emplace a new hpc =>
    by_cases hrefused : t.Refused new
    · rw [emplace_refused hrefused]
      exact List.Subset.refl _
    · obtain ⟨s, number, rfl, hfree⟩ := not_refused hrefused
      rw [emplace_added hfree]
      exact List.Subset.refl _
  | @look a serviceid hpc =>
    obtain ⟨services, starts, heq, -⟩ := look_from serverState t serviceid
    rw [heq]
    exact List.Subset.refl _

/-- A worker that is taken was so before, or has the creation in its queue. -/
theorem Changed.taken (hchanged : Changed serverState t t') (h : t'.Taken) :
    t.Taken ∨ t.Open ∧ ∃ a, .addService a ∈ t.queue ∧ a.promising = true := by
  cases hchanged with
  | begin hpc =>
    rcases h with hhosts | ⟨a, p, ha, -⟩
    · exact .inl (.inl hhosts)
    · cases ha
  | work hwork => exact hwork.taken h
  | _ => exact .inl h

theorem Open.of_forward (hforward : State.Forward t.worker.state_ t'.worker.state_) (h : t'.Open) :
    t.Open := by
  unfold Open at h ⊢
  generalize t.worker.state_ = state at hforward ⊢
  generalize t'.worker.state_ = state' at hforward h
  cases hforward with
  | same => exact h
  | begin => exact .inl rfl
  | _ => simp at h

end Station

/-! ## The calls -/

/-- The worker that is asked for. -/
def Request.target (router : Router) (r : Request) : Option (Fin router.workers) :=
  if h : router.workeridValid r.workerid.toUInt32 = true then
    some ⟨r.workerid.toUInt32.toNat - 1, Request.index_lt h⟩
  else none

namespace Host

variable {router : Router} {ι : Type} [DecidableEq ι] {configs : List Request}
  {s s' : Host router ι} {a : Action router ι}

def shared (s : Host router ι) (i : Fin router.workers) : Bool := (s.station i).worker.shared_

/-- What a step writes to which worker's flag. -/
def writes (s : Host router ι) : Action router ι → Option (Fin router.workers × Bool)
  | .main =>
    match s.main with
    | .asking (r :: _) => (r.target router).map fun i => (i, false)
    | _ => none
  | .newService _ r => (r.target router).map fun i => (i, false)
  | .work i _ => (s.station i).writes.map fun b => (i, b)
  | _ => none

theorem newService_target {r : Request} {i : Fin router.workers} (s : Host router ι)
    (thread : Option ι) (configured : Bool) (h : r.target router = some i) :
    s.newService thread r configured =
      (s.setStation i (s.station i).claim).setCall thread (.post i ⟨r.creation, true, configured⟩) := by
  unfold Request.target at h
  unfold newService
  split at h
  next hvalid =>
    obtain rfl := Option.some.inj h
    rw [dif_pos hvalid]
  next => cases h

theorem newService_anywhere {r : Request} (s : Host router ι) (thread : Option ι)
    (configured : Bool) (h : r.target router = none) :
    s.newService thread r configured =
      { s with next_workerid_ := s.next_workerid_ + 1 }.setCall thread
        (.scan s.next_workerid_.toNat [] (List.finRange router.workers)
          ⟨r.creation, false, configured⟩) := by
  unfold Request.target at h
  unfold newService
  split at h
  · cases h
  next hvalid => rw [dif_neg hvalid]

/-- The flags after a write. -/
def written (shared : Fin router.workers → Bool) :
    Option (Fin router.workers × Bool) → Fin router.workers → Bool
  | none => shared
  | some (i, b) => Function.update shared i b

omit [DecidableEq ι] in
theorem shared_setStation (s : Host router ι) (i : Fin router.workers) (t : Station) :
    (s.setStation i t).shared = Function.update s.shared i t.worker.shared_ := by
  funext j
  unfold shared
  by_cases hj : j = i
  · rw [hj, setStation_self, Function.update_self]
  · rw [setStation_of_ne s t hj, Function.update_of_ne hj]

omit [DecidableEq ι] in
/-- A step on a worker that leaves its flag alone. -/
theorem shared_kept {i : Fin router.workers} {t : Station} (h : t.worker.shared_ = s.shared i) :
    (s.setStation i t).shared = s.shared := by
  rw [shared_setStation, h, Function.update_eq_self]

theorem newService_shared (s : Host router ι) (thread : Option ι) (r : Request) (configured : Bool) :
    (s.newService thread r configured).shared =
      written s.shared ((r.target router).map fun i => (i, false)) := by
  cases htarget : r.target router with
  | none =>
    rw [newService_anywhere s thread configured htarget]
    rfl
  | some i =>
    rw [newService_target s thread configured htarget]
    exact shared_setStation s i _

theorem Stepped.shared (h : Stepped configs s a s') : s'.shared = written s.shared (s.writes a) := by
  cases h with
  | begin hcall hmain hpc =>
    have hwrites : s.writes .main = none := by simp only [writes, hmain]
    rw [hwrites]
    exact shared_kept rfl
  | @ask r rest hcall hmain =>
    have hwrites : s.writes .main = (r.target router).map fun i => (i, false) := by
      simp only [writes, hmain]
    rw [hwrites]
    exact newService_shared s none r true
  | postStart hcall hmain =>
    have hwrites : s.writes .main = none := by simp only [writes, hmain]
    rw [hwrites]
    exact shared_kept rfl
  | newService r hcall => exact newService_shared s _ r false
  | enqueue hcall => exact shared_kept rfl
  | stopOne hcall => exact shared_kept rfl
  | post hfree => exact shared_kept rfl
  | @work i fresh t unique hwork =>
    show (s.setStation i t).shared = written s.shared ((s.station i).writes.map fun b => (i, b))
    rw [shared_setStation, hwork.shared]
    cases (s.station i).writes with
    | none => exact Function.update_eq_self i s.shared
    | some b => rfl
  | made hcall hmain => simp only [writes, hmain]; rfl
  | inited hcall hmain => simp only [writes, hmain]; rfl
  | asked hcall hmain => simp only [writes, hmain]; rfl
  | test hcall hmain => simp only [writes, hmain]; rfl
  | count hcall hmain => simp only [writes, hmain]; rfl
  | counted hcall hmain => simp only [writes, hmain]; rfl
  | store hcall hmain => simp only [writes, hmain]; rfl
  | posted hcall hmain => simp only [writes, hmain]; rfl
  | joined hcall hmain hexited => simp only [writes, hmain]; rfl
  | _ => rfl

/-- A thread that is not where this one goes was there before. -/
theorem call_kept {call : Option ι → Call router} {thread other : Option ι} {c d : Call router}
    (h : Function.update call thread c other = d) (hne : c ≠ d) : call other = d := by
  by_cases heq : other = thread
  · rw [heq, Function.update_self] at h
    exact absurd h hne
  · rwa [Function.update_of_ne heq] at h

/-- A call at `add_service` was there, has just claimed its worker, or has chosen it. -/
theorem Stepped.posting (h : Stepped configs s a s') {thread : Option ι} {i : Fin router.workers}
    {ask : Ask} (hpost : s'.call thread = .post i ask) :
    s.call thread = .post i ask ∨ s.writes a = some (i, false) ∨
      ∃ n free, s.call thread = .scan n free [] ask := by
  have hnew : ∀ (caller : Option ι) (r : Request) (configured : Bool),
      (s.newService caller r configured).call thread = .post i ask →
      s.call thread = .post i ask ∨ r.target router = some i := by
    intro caller r configured hpost
    cases htarget : r.target router with
    | none =>
      rw [newService_anywhere s caller configured htarget] at hpost
      exact .inl (call_kept hpost nofun)
    | some j =>
      rw [newService_target s caller configured htarget] at hpost
      by_cases heq : thread = caller
      · rw [heq, setCall_self] at hpost
        obtain ⟨rfl, -⟩ := Call.post.inj hpost
        exact .inr rfl
      · rw [setCall_of_ne _ _ heq] at hpost
        exact .inl hpost
  cases h with
  | @ask r rest hcall hmain =>
    refine (hnew none r true hpost).imp_right fun htarget => .inl ?_
    simp only [writes, hmain, htarget]
    rfl
  | newService r hcall =>
    refine (hnew _ r false hpost).imp_right fun htarget => .inl ?_
    simp only [writes, htarget]
    rfl
  | exchange c hcall hc =>
    rcases hc with rfl | ⟨rest, rfl⟩
    · exact .inl (call_kept hpost nofun)
    · exact .inl (call_kept hpost nofun)
  | look hcall => exact .inl (call_kept hpost nofun)
  | @chosen caller n free ask' hcall =>
    by_cases heq : thread = caller
    · subst heq
      rw [setCall_self] at hpost
      obtain ⟨-, rfl⟩ := Call.post.inj hpost
      exact .inr (.inr ⟨n, free, hcall⟩)
    · rw [setCall_of_ne s _ heq] at hpost
      exact .inl hpost
  | enqueue hcall => exact .inl (call_kept hpost nofun)
  | stopOne hcall => exact .inl (call_kept hpost nofun)
  | stopped hcall => exact .inl (call_kept hpost nofun)
  | _ => exact .inl hpost

/-- A `next_worker` under way was there, has just begun, or has just looked at a flag. -/
theorem Stepped.scan (h : Stepped configs s a s') {thread : Option ι} {n : Nat}
    {free rest : List (Fin router.workers)} {ask : Ask}
    (hscan : s'.call thread = .scan n free rest ask) :
    s.call thread = .scan n free rest ask ∨
      (free = [] ∧ rest = List.finRange router.workers ∧ ask.explicit = false) ∨
      ∃ i free', s.call thread = .scan n free' (i :: rest) ask ∧
        free = (if s.shared i then free' ++ [i] else free') ∧ s'.shared = s.shared := by
  have hnew : ∀ (caller : Option ι) (r : Request) (configured : Bool),
      (s.newService caller r configured).call thread = .scan n free rest ask →
      s.call thread = .scan n free rest ask ∨
        (free = [] ∧ rest = List.finRange router.workers ∧ ask.explicit = false) := by
    intro caller r configured hscan
    rcases newService_cases s caller r configured with ⟨i, hnew⟩ | hnew
    · rw [hnew] at hscan
      exact .inl (call_kept hscan nofun)
    · rw [hnew] at hscan
      by_cases heq : thread = caller
      · rw [heq, setCall_self] at hscan
        obtain ⟨-, rfl, rfl, rfl⟩ := Call.scan.inj hscan
        exact .inr ⟨rfl, rfl, rfl⟩
      · rw [setCall_of_ne _ _ heq] at hscan
        exact .inl hscan
  cases h with
  | @ask r rest hcall hmain => exact (hnew none r true hscan).imp_right .inl
  | newService r hcall => exact (hnew _ r false hscan).imp_right .inl
  | exchange c hcall hc =>
    rcases hc with rfl | ⟨rest, rfl⟩
    · exact .inl (call_kept hscan nofun)
    · exact .inl (call_kept hscan nofun)
  | @look caller n' free' i rest' ask' hcall =>
    by_cases heq : thread = caller
    · subst heq
      rw [setCall_self] at hscan
      obtain ⟨rfl, rfl, rfl, rfl⟩ := Call.scan.inj hscan
      exact .inr (.inr ⟨i, free', hcall, rfl, rfl⟩)
    · rw [setCall_of_ne s _ heq] at hscan
      exact .inl hscan
  | chosen hcall => exact .inl (call_kept hscan nofun)
  | enqueue hcall => exact .inl (call_kept hscan nofun)
  | stopOne hcall => exact .inl (call_kept hscan nofun)
  | stopped hcall => exact .inl (call_kept hscan nofun)
  | _ => exact .inl hscan

omit [DecidableEq ι] in
theorem queue_setStation {i j : Fin router.workers} {t : Station} {task : Station.Task}
    (h : task ∈ ((s.setStation j t).station i).queue) :
    i = j ∧ task ∈ t.queue ∨ task ∈ (s.station i).queue := by
  by_cases hi : i = j
  · subst hi
    rw [setStation_self] at h
    exact .inl ⟨rfl, h⟩
  · rw [setStation_of_ne s t hi] at h
    exact .inr h

/-- A creation in a queue was there, or a call has put it there. -/
theorem Stepped.queued (h : Stepped configs s a s') {i : Fin router.workers} {ask : Ask}
    (hmem : .addService ask ∈ (s'.station i).queue) :
    .addService ask ∈ (s.station i).queue ∨ ∃ thread, s.call thread = .post i ask := by
  have hpost : ∀ {j : Fin router.workers} {task : Station.Task},
      .addService ask ∈ ((s.setStation j ((s.station j).post task)).station i).queue →
      .addService ask ≠ task → .addService ask ∈ (s.station i).queue := by
    intro j task hmem hne
    rcases queue_setStation hmem with ⟨rfl, hmem⟩ | hmem
    · exact (List.mem_append.mp hmem).resolve_right (mt List.mem_singleton.mp hne)
    · exact hmem
  have hnew : ∀ (caller : Option ι) (r : Request) (configured : Bool),
      .addService ask ∈ ((s.newService caller r configured).station i).queue →
      .addService ask ∈ (s.station i).queue := by
    intro caller r configured hmem
    rcases newService_cases s caller r configured with ⟨j, heq⟩ | heq
    · rw [heq] at hmem
      rcases queue_setStation hmem with ⟨rfl, hmem⟩ | hmem
      · exact hmem
      · exact hmem
    · rw [heq] at hmem
      exact hmem
  cases h with
  | begin hcall hmain hpc =>
    rcases queue_setStation hmem with ⟨rfl, hmem⟩ | hmem
    · exact .inl hmem
    · exact .inl hmem
  | ask hcall hmain => exact .inl (hnew none _ true hmem)
  | postStart hcall hmain => exact .inl (hpost hmem nofun)
  | newService r hcall => exact .inl (hnew _ r false hmem)
  | @enqueue caller j ask' hcall =>
    rcases queue_setStation hmem with ⟨rfl, hmem⟩ | hmem
    · rcases List.mem_append.mp hmem with hmem | hmem
      · exact .inl hmem
      · obtain rfl := Station.Task.addService.inj (List.mem_singleton.mp hmem)
        exact .inr ⟨caller, hcall⟩
    · exact .inl hmem
  | stopOne hcall => exact .inl (hpost hmem nofun)
  | post hfree =>
    refine .inl (hpost hmem ?_)
    rintro rfl
    cases hfree
  | work unique hwork =>
    rcases queue_setStation hmem with ⟨rfl, hin⟩ | hin
    · exact .inl (hwork.queue hin)
    · exact .inl hin
  | _ => exact .inl hmem

/-! ## The flags -/

/-- A creation with the id of this worker has still to be run, and may succeed. -/
def OnWay (s : Host router ι) (i : Fin router.workers) : Prop :=
  ∃ a, a.promising = true ∧
    ((∃ thread, s.call thread = .post i a) ∨ .addService a ∈ (s.station i).queue)

/-- The step sets the flag of no worker that has such a creation still ahead of it. -/
def Guarded (s : Host router ι) (a : Action router ι) : Prop :=
  ∀ i, s.writes a = some (i, true) → (s.station i).worker.state_ = .ready → ¬s.OnWay i

/-- The step writes no flag over what a `next_worker` under way has read: it clears none on the
list of free workers, and sets none that was found cleared while the list is empty. -/
def Steady (s : Host router ι) (a : Action router ι) : Prop :=
  ∀ i b, s.writes a = some (i, b) → ∀ thread n free rest ask, s.call thread = .scan n free rest ask →
    if b then free = [] → i ∈ rest else i ∉ free

/-- Only a creation without the id of a worker looks for one. -/
def Plain (s : Host router ι) : Prop :=
  ∀ thread n free rest ask, s.call thread = .scan n free rest ask → ask.explicit = false

theorem plain_of_reach (h : (host router ι configs).Reach s) : Plain s := by
  refine h.invariant ?_ ?_
  · rintro s rfl thread n free rest ask hscan
    cases hscan
  · intro s a s' _ hs hstep thread n free rest ask hscan
    rcases (step_cases hstep).scan hscan with h | ⟨-, -, h⟩ | ⟨i, free', h, -, -⟩
    · exact hs thread n free rest ask h
    · exact h
    · exact hs thread n free' (i :: rest) ask h

theorem Stepped.onWay (h : Stepped configs s a s') (hplain : Plain s) {i : Fin router.workers}
    (hway : s'.OnWay i) : s.OnWay i ∨ s.writes a = some (i, false) := by
  obtain ⟨ask, hask, ⟨thread, hpost⟩ | hmem⟩ := hway
  · rcases h.posting hpost with hbefore | hwrites | ⟨n, free, hscan⟩
    · exact .inl ⟨ask, hask, .inl ⟨thread, hbefore⟩⟩
    · exact .inr hwrites
    · rw [Ask.promising, hplain thread n free [] ask hscan] at hask
      cases hask
  · rcases h.queued hmem with hbefore | hcall
    · exact .inl ⟨ask, hask, .inr hbefore⟩
    · exact .inl ⟨ask, hask, .inl hcall⟩

/-- The flag is cleared of every worker that is taken, and of those that a creation with their id
is on its way to. -/
def Reserved (s : Host router ι) : Prop :=
  ∀ i, (s.station i).Taken ∨ (s.station i).Open ∧ s.OnWay i → s.shared i = false

omit [DecidableEq ι] in
theorem reserved_make : Reserved (make router ι) := by
  rintro i ((⟨serviceid, hmem, -⟩ | ⟨a, p, ha, -⟩) | ⟨-, a, -, ⟨thread, hpost⟩ | hmem⟩)
  · exact absurd (AList.mem_keys.mp hmem) List.not_mem_nil
  · cases ha
  · cases hpost
  · exact absurd hmem List.not_mem_nil

omit [DecidableEq ι] in
/-- Only the thread of a worker sets its flag. -/
theorem writes_true {i : Fin router.workers} (h : s.writes a = some (i, true)) :
    (∃ fresh, a = .work i fresh) ∧ (s.station i).writes = some true := by
  cases a with
  | main =>
    unfold writes at h
    dsimp only at h
    split at h
    · obtain ⟨j, -, h⟩ := Option.map_eq_some_iff.mp h
      cases h
    · cases h
  | newService j r =>
    obtain ⟨k, -, h⟩ := Option.map_eq_some_iff.mp h
    cases h
  | work j fresh =>
    obtain ⟨b, hb, h⟩ := Option.map_eq_some_iff.mp h
    obtain ⟨rfl, rfl⟩ := Prod.mk.inj h
    exact ⟨⟨fresh, rfl⟩, hb⟩
  | _ => cases h

theorem Stepped.released (h : Stepped configs s a s') (hguarded : Guarded s a) (hplain : Plain s)
    (hsound : ∀ i, (s.station i).Sound) {i : Fin router.workers}
    (hwrites : s.writes a = some (i, true)) :
    ¬((s'.station i).Taken ∨ (s'.station i).Open ∧ s'.OnWay i) := by
  obtain ⟨⟨fresh, rfl⟩, htrue⟩ := writes_true hwrites
  have hopen : (s'.station i).Open → (s.station i).Open :=
    Station.Open.of_forward ((h.changed i).orderly (hsound i)).forward
  rintro (htaken | ⟨hstate, hway⟩)
  · cases h with
    | @work _ _ t unique hwork =>
      have htaken : ((s.setStation i t).station i).Taken := htaken
      rw [setStation_self] at htaken
      exact hwork.not_taken htrue htaken
  · have hbefore : s.OnWay i := by
      rcases h.onWay hplain hway with hway | hclaim
      · exact hway
      · rw [hwrites] at hclaim
        cases hclaim
    rcases hopen hstate with hinit | hready
    · -- its thread has not begun
      rcases (hsound i).born.mp hinit with hpc | hpc
      · simp [Station.writes, hpc] at htrue
      · simp [Station.writes, hpc] at htrue
    · exact hguarded i hwrites hready hbefore

theorem Stepped.reserved (h : Stepped configs s a s') (hguarded : Guarded s a) (hplain : Plain s)
    (hsound : ∀ i, (s.station i).Sound) (hs : Reserved s) : Reserved s' := by
  intro i hi
  have hchanged := h.changed i
  -- what is taken or on its way was so before, or claims the flag in this step
  have hbefore : ((s.station i).Taken ∨ (s.station i).Open ∧ s.OnWay i) ∨
      s.writes a = some (i, false) := by
    rcases hi with htaken | ⟨hstate, hway⟩
    · rcases hchanged.taken htaken with htaken | ⟨hstate, ask, hmem, hask⟩
      · exact .inl (.inl htaken)
      · exact .inl (.inr ⟨hstate, ask, hask, .inr hmem⟩)
    · refine (h.onWay hplain hway).imp_left fun hway => .inr ⟨?_, hway⟩
      exact Station.Open.of_forward (hchanged.orderly (hsound i)).forward hstate
  rw [h.shared]
  cases hwrites : s.writes a with
  | none =>
    rw [hwrites] at hbefore
    rcases hbefore with hbefore | hnone
    · exact hs i hbefore
    · cases hnone
  | some p =>
    obtain ⟨j, b⟩ := p
    show Function.update s.shared j b i = false
    by_cases hj : i = j
    · subst hj
      rw [Function.update_self]
      cases b with
      | false => rfl
      | true => exact absurd hi (h.released hguarded hplain hsound hwrites)
    · rw [Function.update_of_ne hj]
      rcases hbefore with hbefore | hclaim
      · exact hs i hbefore
      · rw [hwrites] at hclaim
        cases hclaim
        exact absurd rfl hj

theorem reserved_of_reach (h : ((host router ι configs).restrict Guarded).Reach s) : Reserved s := by
  refine h.invariant ?_ ?_
  · rintro s rfl
    exact reserved_make
  · rintro s a s' hreach hs ⟨hguarded, hstep⟩
    have hreach := hreach.of_restrict
    exact (step_cases hstep).reserved hguarded (plain_of_reach hreach) (sound_of_reach hreach) hs

/-! ## The choice -/

/-- What `next_worker` has read is still so. -/
def Scanned (s : Host router ι) : Prop :=
  ∀ thread n free rest ask, s.call thread = .scan n free rest ask →
    (∀ j ∈ free, s.shared j = true) ∧ (free = [] → ∀ j, j ∉ rest → s.shared j = false)

theorem Stepped.scanned (h : Stepped configs s a s') (hsteady : Steady s a) (hs : Scanned s) :
    Scanned s' := by
  intro thread n free rest ask hscan
  rcases h.scan hscan with hbefore | ⟨rfl, rfl, -⟩ | ⟨i, free', hbefore, rfl, hshared⟩
  · obtain ⟨hfree, hnone⟩ := hs thread n free rest ask hbefore
    rw [h.shared]
    cases hwrites : s.writes a with
    | none => exact ⟨hfree, hnone⟩
    | some p =>
      obtain ⟨i, b⟩ := p
      have hkept := hsteady i b hwrites thread n free rest ask hbefore
      refine ⟨fun j hj => ?_, fun hnil j hj => ?_⟩
      · show Function.update s.shared i b j = true
        by_cases hji : j = i
        · subst hji
          rw [Function.update_self]
          cases b with
          | true => rfl
          | false => exact absurd hj hkept
        · rw [Function.update_of_ne hji]
          exact hfree j hj
      · show Function.update s.shared i b j = false
        by_cases hji : j = i
        · subst hji
          rw [Function.update_self]
          cases b with
          | true => exact absurd (hkept hnil) hj
          | false => rfl
        · rw [Function.update_of_ne hji]
          exact hnone hnil j hj
  · exact ⟨fun j hj => absurd hj List.not_mem_nil, fun _ j hj => absurd (List.mem_finRange j) hj⟩
  · obtain ⟨hfree, hnone⟩ := hs thread n free' (i :: rest) ask hbefore
    rw [hshared]
    cases hi : s.shared i with
    | true =>
      rw [if_pos rfl]
      refine ⟨fun j hj => ?_, fun hnil => absurd hnil (by simp)⟩
      rcases List.mem_append.mp hj with hj | hj
      · exact hfree j hj
      · rw [List.mem_singleton.mp hj]
        exact hi
    | false =>
      rw [if_neg (by simp)]
      refine ⟨hfree, fun hnil j hj => ?_⟩
      by_cases hji : j = i
      · rw [hji]
        exact hi
      · exact hnone hnil j (by simp [hji, hj])

theorem scanned_of_reach (h : ((host router ι configs).restrict Steady).Reach s) : Scanned s := by
  refine h.invariant ?_ ?_
  · rintro s rfl thread n free rest ask hscan
    cases hscan
  · rintro s a s' - hs ⟨hsteady, hstep⟩
    exact (step_cases hstep).scanned hsteady hs

theorem choose_mem {n : Nat} {free : List (Fin router.workers)} (h : free ≠ []) :
    choose n free ∈ free := by
  unfold choose
  rw [dif_pos h]
  exact List.get_mem _ _

omit [DecidableEq ι] in
/-- The worker that `next_worker` selects. -/
theorem Scanned.chosen (hs : Scanned s) {thread : Option ι} {n : Nat}
    {free : List (Fin router.workers)} {ask : Ask} (hscan : s.call thread = .scan n free [] ask)
    (hsome : ∃ j, s.shared j = true) : s.shared (choose n free) = true := by
  obtain ⟨hfree, hnone⟩ := hs thread n free [] ask hscan
  refine hfree _ (choose_mem ?_)
  rintro rfl
  obtain ⟨j, hj⟩ := hsome
  rw [hnone rfl j List.not_mem_nil] at hj
  cases hj

theorem exclusive_of_guarded (router : Router) (ι : Type) [DecidableEq ι] (configs : List Request) :
    (∀ s, ((host router ι configs).restrict Guarded).Reach s →
      ∀ i, (s.station i).Hosts → s.shared i = false) ∧
    (∀ s, ((host router ι configs).restrict fun s a => Guarded s a ∧ Steady s a).Reach s →
      ∀ thread n free ask, s.call thread = .scan n free [] ask → (∃ j, s.shared j = true) →
        ¬(s.station (choose n free)).Hosts) := by
  have hflag : ∀ s, ((host router ι configs).restrict Guarded).Reach s →
      ∀ i, (s.station i).Hosts → s.shared i = false := fun s h i hhosts =>
    reserved_of_reach h i (.inl (.inl hhosts))
  refine ⟨hflag, fun s h thread n free ask hscan hsome hhosts => ?_⟩
  have hfalse := hflag s (h.restrict_mono fun _ _ hok => hok.1) _ hhosts
  have htrue := (scanned_of_reach (h.restrict_mono fun _ _ hok => hok.2)).chosen hscan hsome
  rw [hfalse] at htrue
  cases htrue

/-! ## Two runs -/

/-- A service without a name on the first worker. -/
private def kept (registered : Bool) : Request := ⟨⟨registered, true, [], false, 0, 0⟩, 1⟩

private def twoWorkers : Router := ⟨2, by decide, by decide⟩

private def first : Fin twoWorkers.workers := ⟨0, by decide⟩

private def second : Fin twoWorkers.workers := ⟨1, by decide⟩

/-- It has a service under this id that was created with the id of the worker. -/
private def Station.hosts (t : Station) (serviceid : UInt32) : Bool :=
  serviceid ∈ t.worker.services_ && (t.origin serviceid).explicit

/-- No `next_worker` is under way, and the step sets no flag; or it writes none. -/
private def quiet (s : Host twoWorkers Unit) (a : Action twoWorkers Unit) : Bool :=
  match s.writes a with
  | none => true
  | some (_, b) => !b && [none, some ()].all fun thread =>
    match s.call thread with
    | .scan _ _ _ _ => false
    | _ => true

private theorem guarded_of_quiet {s : Host twoWorkers Unit} {a : Action twoWorkers Unit}
    (h : quiet s a = true) : Guarded s a ∧ Steady s a := by
  unfold quiet at h
  refine ⟨fun i hwrites => ?_, fun i b hwrites thread n free rest ask hscan => ?_⟩
  · simp [hwrites] at h
  · rw [hwrites] at h
    obtain ⟨-, hall⟩ := Bool.and_eq_true_iff.mp h
    have hthread := List.all_eq_true.mp hall thread (by cases thread <;> simp)
    rw [hscan] at hthread
    cases hthread

/-- The second worker is the only one on the list. -/
private def listed (s : Host twoWorkers Unit) : Bool :=
  match s.call (some ()) with
  | .scan _ free [] _ => free = [second]
  | _ => false

/-- The creation for the first worker is done, and a `next_worker` has read the flags. -/
theorem exclusive_of_guarded_two : ∃ s, ((host twoWorkers Unit [kept true]).restrict
    fun s a => Guarded s a ∧ Steady s a).Reach s ∧ (s.station first).Hosts ∧ s.shared first = false ∧
    ∃ n free ask, s.call (some ()) = .scan n free [] ask ∧ ¬(s.station (choose n free)).Hosts := by
  obtain ⟨s, hrun, hs⟩ := Option.map_eq_some_iff.mp (show
    (List.foldlM (fun s a => if quiet s a then step [kept true] s a else none) (make twoWorkers Unit)
      [.main, .work first fun _ => 0, .main, .main, .work second fun _ => 0, .main, .main, .main,
        .proceed none, .work first fun _ => 0, .work first fun _ => 0, .newService () anywhere,
        .proceed (some ()), .proceed (some ())]).map (fun s : Host twoWorkers Unit =>
      (Station.hosts (s.station first) 0x01000001, s.shared second, listed s)) =
      some (true, true, true) by
    decide +kernel)
  obtain ⟨hhosts, hs⟩ := Prod.mk.inj hs
  obtain ⟨hshared, hlisted⟩ := Prod.mk.inj hs
  obtain ⟨hmem, hexplicit⟩ := Bool.and_eq_true_iff.mp hhosts
  have hreach : ((host twoWorkers Unit [kept true]).restrict
      fun s a => Guarded s a ∧ Steady s a).Reach s := by
    refine System.Reach.foldlM (fun {s a s'} hstep => ?_) (System.Reach.start rfl) _ hrun
    obtain ⟨hquiet, hstep⟩ := Option.ite_none_right_eq_some.mp hstep
    exact ⟨guarded_of_quiet hquiet, hstep⟩
  obtain ⟨hflag, hchoice⟩ := exclusive_of_guarded twoWorkers Unit [kept true]
  have hfirst : (s.station first).Hosts := ⟨_, of_decide_eq_true hmem, hexplicit⟩
  refine ⟨s, hreach, hfirst, hflag s (hreach.restrict_mono fun _ _ hok => hok.1) first hfirst, ?_⟩
  unfold listed at hlisted
  split at hlisted
  next n free ask hcall =>
    exact ⟨n, free, ask, hcall, hchoice s hreach (some ()) n free ask hcall ⟨second, hshared⟩⟩
  next => cases hlisted

/-- Two creations for the only worker, the first of a type that is not registered. -/
theorem not_exclusive : ¬∀ s, (host oneWorker Unit [kept false, kept true]).Reach s →
    ∀ i, (s.station i).Hosts → s.shared i = false := by
  intro hall
  obtain ⟨s, hrun, hs⟩ := Option.map_eq_some_iff.mp (show
    (run [kept false, kept true] [.main, .work onlyWorker fun _ => 0, .main, .main, .main,
      .proceed none, .main, .proceed none, .work onlyWorker fun _ => 0, .work onlyWorker fun _ => 0,
      .work onlyWorker fun _ => 0, .work onlyWorker fun _ => 0]).map (fun s : Host oneWorker Unit =>
      (s.shared onlyWorker, Station.hosts (s.station onlyWorker) 0x01000002)) = some (true, true) by
    decide +kernel)
  obtain ⟨hshared, hhosts⟩ := Prod.mk.inj hs
  obtain ⟨hmem, hexplicit⟩ := Bool.and_eq_true_iff.mp hhosts
  have hfalse := hall s (reach_run hrun) onlyWorker ⟨_, of_decide_eq_true hmem, hexplicit⟩
  rw [hshared] at hfalse
  cases hfalse

end Host

end HappyServer.Services
