import HappyServer.Services.Shutdown

/-!
# Services are started once (`worker::add_service`, `worker::start`, `server::run`)

A service is started by its own creation, which looks at the state of the server once, or by the
task that `run` posts to its worker.

* `Marked`: the flag of a service says whether its number is in `starts`.
* `Covered`: a service that was not started has one of the two still ahead of it.
-/

namespace HappyServer.Services

open Server

namespace Station

variable {serverState : State} {t t' : Station} {serviceid other : UInt32} {s : Service}

/-! ## The flags -/

structure Marked (t : Station) : Prop where
  ok : ∀ serviceid s, t.worker.services_.lookup serviceid = some s → s.ok_ = true
  nodup : t.starts.Nodup
  sub : t.starts ⊆ t.emplaced
  mark : ∀ serviceid s, t.worker.services_.lookup serviceid = some s →
    (s.start_ = true ↔ t.number serviceid ∈ t.starts)

theorem mem_of_lookup (h : t.worker.services_.lookup serviceid = some s) :
    serviceid ∈ t.worker.services_ := AList.lookup_isSome.mp (by rw [h]; rfl)

theorem start_started (h : s.ok_ = true) : s.start.start_ = true := by
  unfold Service.start
  split
  next hcond => simpa [h] using hcond
  next => rfl

@[simp] theorem start_ok (s : Service) : s.start.ok_ = s.ok_ := by
  unfold Service.start
  split <;> rfl

theorem lookup_startService (t : Station) (serviceid other : UInt32) :
    (t.startService serviceid).worker.services_.lookup other =
      if other = serviceid then (t.worker.services_.lookup serviceid).map Service.start
      else t.worker.services_.lookup other := by
  unfold startService
  by_cases heq : other = serviceid
  · subst heq
    rw [if_pos rfl]
    split
    next hnone => rw [hnone]; rfl
    next s hs =>
      rw [hs]
      exact AList.lookup_insert _
  · rw [if_neg heq]
    split
    · rfl
    · exact AList.lookup_insert_ne heq

theorem number_startService (t : Station) (serviceid : UInt32) :
    (t.startService serviceid).number = t.number := by
  obtain ⟨services, starts, heq, -⟩ := startService_from t serviceid
  rw [heq]
  rfl

theorem starts_startService (hs : t.worker.services_.lookup serviceid = some s) (hok : s.ok_ = true) :
    (t.startService serviceid).starts =
      if s.start_ then t.starts else t.starts ++ [t.number serviceid] := by
  unfold startService
  rw [hs]
  simp only [hok, Bool.not_true, Bool.or_false]

theorem startService_of_none (h : t.worker.services_.lookup serviceid = none) :
    t.startService serviceid = t := by
  unfold startService
  rw [h]

theorem Marked.startService (h : Marked t) (hsound : Sound t) (serviceid : UInt32) :
    Marked (t.startService serviceid) := by
  cases hs : t.worker.services_.lookup serviceid with
  | none =>
    rw [startService_of_none hs]
    exact h
  | some s =>
    have hok := h.ok serviceid s hs
    have hmem := mem_of_lookup hs
    have hemplaced : (t.startService serviceid).emplaced = t.emplaced := by
      obtain ⟨services, starts, heq, -⟩ := startService_from t serviceid
      rw [heq]
    have hstarts := starts_startService hs hok
    refine ⟨fun other s' hs' => ?_, ?_, ?_, fun other s' hs' => ?_⟩
    · rw [lookup_startService] at hs'
      split at hs'
      · obtain ⟨s'', hs'', rfl⟩ := Option.map_eq_some_iff.mp hs'
        rw [start_ok]
        exact h.ok serviceid s'' hs''
      · exact h.ok other s' hs'
    · rw [hstarts]
      split
      · exact h.nodup
      next hfalse =>
        refine List.nodup_append.mpr ⟨h.nodup, List.nodup_singleton _, ?_⟩
        rintro k hk _ hk' rfl
        rw [List.mem_singleton.mp hk'] at hk
        exact hfalse ((h.mark serviceid s hs).mpr hk)
    · rw [hstarts, hemplaced]
      split
      · exact h.sub
      · exact List.append_subset.mpr ⟨h.sub, List.cons_subset.mpr
          ⟨(hsound.live serviceid hmem).1, List.nil_subset _⟩⟩
    · rw [lookup_startService] at hs'
      rw [number_startService, hstarts]
      split at hs'
      next heq =>
        subst heq
        rw [hs] at hs'
        obtain rfl := Option.some.inj hs'
        refine iff_of_true (start_started hok) ?_
        split
        next htrue => exact (h.mark _ s hs).mp htrue
        next => exact List.mem_append_right _ (List.mem_singleton_self _)
      next hne =>
        rw [h.mark other s' hs']
        split
        · rfl
        · -- another service has another number
          rw [List.mem_append, List.mem_singleton]
          refine (or_iff_left fun heq => hne ?_).symm
          exact hsound.numbers other (mem_of_lookup hs') serviceid hmem heq

theorem Marked.start (h : Marked t) (hsound : Sound t) : Marked t.start := by
  have hfold : ∀ (serviceids : List UInt32) (t : Station), Marked t → Sound t →
      Marked (serviceids.foldl Station.startService t) := by
    intro serviceids
    induction serviceids with
    | nil => exact fun t h _ => h
    | cons serviceid serviceids ih =>
      intro t h hsound
      exact ih _ (h.startService hsound serviceid) (hsound.started (startService_from t serviceid))
  exact hfold _ t h hsound

/-- The task of `start` leaves no service that was not started. -/
theorem Marked.all_started (h : Marked t) (hs : t.start.worker.services_.lookup serviceid = some s) :
    s.start_ = true := by
  have hfold : ∀ (serviceids : List UInt32) (t : Station),
      (∀ serviceid s, t.worker.services_.lookup serviceid = some s → s.ok_ = true) →
      (serviceids.foldl Station.startService t).worker.services_.lookup serviceid = some s →
      s.start_ = true ∨ serviceid ∉ serviceids ∧ t.worker.services_.lookup serviceid = some s := by
    intro serviceids
    induction serviceids with
    | nil => exact fun t _ hs => .inr ⟨List.not_mem_nil, hs⟩
    | cons first serviceids ih =>
      intro t hok hs
      have hok' : ∀ serviceid s, (t.startService first).worker.services_.lookup serviceid = some s →
          s.ok_ = true := by
        intro other s' hs'
        rw [lookup_startService] at hs'
        split at hs'
        · obtain ⟨s'', hs'', rfl⟩ := Option.map_eq_some_iff.mp hs'
          rw [start_ok]
          exact hok first s'' hs''
        · exact hok other s' hs'
      rcases ih (t.startService first) hok' hs with hstart | ⟨hnot, hlookup⟩
      · exact .inl hstart
      · rw [lookup_startService] at hlookup
        split at hlookup
        · obtain ⟨s'', hs'', rfl⟩ := Option.map_eq_some_iff.mp hlookup
          exact .inl (start_started (hok first s'' hs''))
        next hne =>
          refine .inr ⟨?_, hlookup⟩
          rw [List.mem_cons, not_or]
          exact ⟨hne, hnot⟩
  rcases hfold _ t h.ok hs with hstart | ⟨hnot, hlookup⟩
  · exact hstart
  · exact absurd (AList.mem_keys.mp (mem_of_lookup hlookup)) hnot

theorem marked_make (i : Nat) : Marked (make i) :=
  ⟨nofun, List.nodup_nil, List.nil_subset _, nofun⟩

theorem Marked.emplace {a : Ask} {new : Option (Service × Nat)} (h : Marked t) (hsound : Sound t)
    (hpc : t.pc = .adding a new) : Marked (t.emplace a new) := by
  by_cases hrefused : t.Refused new
  · rw [emplace_refused hrefused]
    exact { h with }
  · obtain ⟨s, number, rfl, hfree⟩ := not_refused hrefused
    rw [emplace_added hfree]
    obtain ⟨-, hstart, -, -, hnew⟩ := hsound.adding _ _ _ hpc
    refine ⟨fun other s' hs' => ?_, h.nodup, fun k hk => List.mem_append_left _ (h.sub hk),
      fun other s' hs' => ?_⟩
    · by_cases heq : other = s.id_
      · subst heq
        rw [AList.lookup_insert] at hs'
        obtain rfl := Option.some.inj hs'
        rfl
      · rw [AList.lookup_insert_ne heq] at hs'
        exact h.ok other s' hs'
    · by_cases heq : other = s.id_
      · subst heq
        rw [AList.lookup_insert] at hs'
        obtain rfl := Option.some.inj hs'
        have hself : (Function.update t.origin s.id_ ⟨number, a.explicit⟩ s.id_).number = number := by
          rw [Function.update_self]
        show s.start_ = true ↔ (Function.update t.origin s.id_ ⟨number, a.explicit⟩ s.id_).number ∈ t.starts
        rw [hself, hstart]
        exact iff_of_false nofun (mt (@h.sub _) hnew)
      · rw [AList.lookup_insert_ne heq] at hs'
        show s'.start_ = true ↔ (Function.update t.origin s.id_ ⟨number, a.explicit⟩ other).number ∈ t.starts
        rw [Function.update_of_ne heq]
        exact h.mark other s' hs'

theorem lookup_erase_some {services : AList fun _ : UInt32 => Service}
    (h : (services.erase serviceid).lookup other = some s) : services.lookup other = some s := by
  by_cases heq : other = serviceid
  · rw [heq, AList.lookup_erase] at h
    cases h
  · rwa [AList.lookup_erase_ne heq] at h

theorem Marked.setQueue (h : Marked t) (queue : List Task) : Marked { t with queue := queue } :=
  { h with }

theorem Worked.marked (hwork : Worked serverState t t') (hsound : Sound t) (h : Marked t) :
    Marked t' := by
  cases hwork with
  | begin hpc => exact { h with }
  | @create a queue unique hpc hstate hqueue =>
    obtain ⟨⟨uuid, huuid⟩, -⟩ := create_spec t.worker unique a.creation
    rw [huuid]
    exact { h with }
  | remove hpc hstate hqueue hremove =>
    rw [removeService_worker hremove]
    exact ⟨fun other s hs => h.ok other s (lookup_erase_some hs), h.nodup, h.sub,
      fun other s hs => h.mark other s (lookup_erase_some hs)⟩
  | @stop queue hpc hstate hqueue =>
    obtain ⟨state, atStop, exits, heq⟩ := stop_from { t with queue := queue }
    rw [heq]
    exact { h with }
  | @start queue hpc hstate hqueue => exact (h.setQueue queue).start (hsound.setQueue queue)
  | other hpc hstate hqueue => exact { h with }
  | emplace hpc => exact h.emplace hsound hpc
  | @look a serviceid hpc =>
    split
    · exact { h.startService hsound serviceid with }
    · exact { h with }

theorem Changed.marked (hchanged : Changed serverState t t') (hsound : Sound t) (h : Marked t) :
    Marked t' := by
  cases hchanged with
  | work hwork => exact hwork.marked hsound h
  | _ => exact { h with }

/-! ## Services that were not started -/

def Unstarted (t : Station) (serviceid : UInt32) : Prop :=
  ∃ s, t.worker.services_.lookup serviceid = some s ∧ s.start_ = false

/-- The thread looks at the state of the server for this service next, or a task to start all is
in the queue. -/
def Pending (t : Station) (serviceid : UInt32) : Prop :=
  .start ∈ t.queue ∨ ∃ a, t.pc = .added a serviceid

theorem mem_tail {task : Task} {queue : List Task} (hqueue : t.queue = task :: queue)
    (hne : task ≠ .start) (h : .start ∈ t.queue) : .start ∈ queue := by
  rw [hqueue] at h
  exact (List.mem_cons.mp h).resolve_left (Ne.symm hne)

/-- A step of the thread takes a task from the queue that does not start anything. -/
theorem Pending.next {task : Task} {queue : List Task} (h : Pending t serviceid) (hpc : t.pc = .idle)
    (hqueue : t.queue = task :: queue) (hne : task ≠ .start) : .start ∈ queue := by
  rcases h with h | ⟨a, h⟩
  · exact mem_tail hqueue hne h
  · rw [hpc] at h
    cases h

/-- Only a thread that is about to look has a service to look for. -/
theorem Pending.queued (h : Pending t serviceid) (hpc : ∀ a, t.pc ≠ .added a serviceid) :
    .start ∈ t.queue := by
  rcases h with hqueue | ⟨a, ha⟩
  · exact hqueue
  · exact absurd ha (hpc a)

theorem Unstarted.of_startService (h : Unstarted (t.startService serviceid) other)
    (hmarked : Marked t) : other ≠ serviceid ∧ Unstarted t other := by
  obtain ⟨s, hs, hstart⟩ := h
  rw [lookup_startService] at hs
  split at hs
  · obtain ⟨s', hs', rfl⟩ := Option.map_eq_some_iff.mp hs
    rw [start_started (hmarked.ok _ s' hs')] at hstart
    cases hstart
  next hne => exact ⟨hne, s, hs, hstart⟩

/-- The task of `start` leaves nothing unstarted. -/
theorem Marked.not_unstarted (h : Marked t) : ¬Unstarted t.start serviceid := by
  rintro ⟨s, hs, hstart⟩
  rw [h.all_started hs] at hstart
  cases hstart

/-- A service that a step leaves unstarted was so before, or its creation has just added it. -/
theorem Worked.unstarted (hwork : Worked serverState t t') (hmarked : Marked t)
    (h : Unstarted t' serviceid) : Unstarted t serviceid ∨ Pending t' serviceid := by
  cases hwork with
  | begin hpc => exact .inl h
  | @create a queue unique hpc hstate hqueue =>
    obtain ⟨⟨uuid, huuid⟩, -⟩ := create_spec t.worker unique a.creation
    rw [huuid] at h
    exact .inl h
  | remove hpc hstate hqueue hremove =>
    rw [removeService_worker hremove] at h
    obtain ⟨s, hs, hstart⟩ := h
    exact .inl ⟨s, lookup_erase_some hs, hstart⟩
  | @stop queue hpc hstate hqueue =>
    obtain ⟨state, atStop, exits, heq⟩ := stop_from { t with queue := queue }
    rw [heq] at h
    exact .inl h
  | @start queue hpc hstate hqueue => exact absurd h (hmarked.setQueue queue).not_unstarted
  | other hpc hstate hqueue => exact .inl h
  | @emplace a new hpc =>
    by_cases hrefused : t.Refused new
    · rw [emplace_refused hrefused] at h
      exact .inl h
    · obtain ⟨s, number, rfl, hfree⟩ := not_refused hrefused
      rw [emplace_added hfree] at h ⊢
      by_cases heq : serviceid = s.id_
      · exact .inr (.inr ⟨a, by rw [heq]⟩)
      · obtain ⟨s', hs', hstart⟩ := h
        exact .inl ⟨s', (AList.lookup_insert_ne heq).symm.trans hs', hstart⟩
  | @look a added hpc =>
    split at h
    · obtain ⟨-, hun⟩ : serviceid ≠ added ∧ Unstarted t serviceid := h.of_startService hmarked
      exact .inl hun
    · exact .inl h

/-- A pending start stays so until it is made; the look at a server in `init` drops it. -/
theorem Worked.pending (hwork : Worked serverState t t') (hmarked : Marked t)
    (h : Unstarted t' serviceid) (hpending : Pending t serviceid) :
    Pending t' serviceid ∨ serverState = .init := by
  cases hwork with
  | begin hpc => exact .inl (.inl (hpending.queued (by simp [hpc])))
  | create unique hpc hstate hqueue => exact .inl (.inl (hpending.next hpc hqueue nofun))
  | remove hpc hstate hqueue hremove => exact .inl (.inl (hpending.next hpc hqueue nofun))
  | @stop queue hpc hstate hqueue =>
    obtain ⟨state, atStop, exits, heq⟩ := stop_from { t with queue := queue }
    rw [heq]
    exact .inl (.inl (hpending.next hpc hqueue nofun))
  | @start queue hpc hstate hqueue => exact absurd h (hmarked.setQueue queue).not_unstarted
  | other hpc hstate hqueue => exact .inl (.inl (hpending.next hpc hqueue nofun))
  | @emplace a new hpc =>
    have hmem := hpending.queued (by simp [hpc])
    by_cases hrefused : t.Refused new
    · rw [emplace_refused hrefused]
      exact .inl (.inl hmem)
    · obtain ⟨s, number, rfl, hfree⟩ := not_refused hrefused
      rw [emplace_added hfree]
      exact .inl (.inl hmem)
  | @look a added hpc =>
    by_cases hinit : serverState = .init
    · exact .inr hinit
    · rw [if_pos hinit] at h ⊢
      obtain ⟨hne, -⟩ : serviceid ≠ added ∧ Unstarted t serviceid := h.of_startService hmarked
      have hmem : .start ∈ t.queue := hpending.queued fun a' ha' => by
        rw [hpc] at ha'
        cases ha'
        exact hne rfl
      obtain ⟨services, starts, heq, -⟩ := startService_from t added
      rw [heq]
      exact .inl (.inl hmem)

end Station

/-! ## What `run` has still to post -/

namespace Host

variable {router : Router} {ι : Type} [DecidableEq ι] {configs : List Request}
  {s s' : Host router ι} {a : Action router ι}

/-- `run` has still to post the task that starts the services of this worker. -/
def Main.startless (main : Main router) (i : Fin router.workers) : Prop :=
  match main with
  | .posting rest => i ∈ rest
  | .running => False
  | .returned => False
  | _ => True

/-- `run` has not stored `ready`. -/
def Main.early : Main router → Prop
  | .posting _ => False
  | .running => False
  | .returned => False
  | _ => True

/-- `run` has posted all tasks to start services. -/
def Main.posted : Main router → Prop
  | .posting [] => True
  | .running => True
  | .returned => True
  | _ => False

theorem Main.startless_of_early {main : Main router} (h : main.early) (i : Fin router.workers) :
    main.startless i := by
  cases main <;> trivial

theorem Main.not_startless {main : Main router} (h : main.posted) (i : Fin router.workers) :
    ¬main.startless i := by
  cases main with
  | posting rest =>
    cases rest with
    | nil => exact List.not_mem_nil
    | cons => exact h.elim
  | running => exact id
  | returned => exact id
  | _ => exact h.elim

structure Covered (s : Host router ι) : Prop where
  /-- only `server::init` stores `init` -/
  early : s.state_ = .init → s.main.early
  covered : ∀ i serviceid, (s.station i).Unstarted serviceid →
    s.main.startless i ∨ (s.station i).Pending serviceid

omit [DecidableEq ι] in
theorem covered_make : Covered (make router ι) where
  early := nofun
  covered i serviceid h := by
    obtain ⟨s, hs, -⟩ := h
    cases hs

theorem Stepped.early (h : Stepped configs s a s') (hs : s.state_ = .init → s.main.early) :
    s'.state_ = .init → s'.main.early := by
  cases h with
  | made hcall hmain => exact fun _ => trivial
  | inited hcall hmain => exact fun _ => trivial
  | ask hcall hmain => exact fun _ => trivial
  | asked hcall hmain => exact fun _ => trivial
  | test hcall hmain =>
    intro _
    show Main.early (if _ then _ else _)
    split <;> trivial
  | count hcall hmain => exact fun _ => trivial
  | counted hcall hmain =>
    intro _
    show Main.early (if _ then _ else _)
    split <;> trivial
  | store hcall hmain => exact nofun
  | postStart hcall hmain =>
    intro hinit
    have := hs hinit
    rw [hmain] at this
    exact this
  | posted hcall hmain =>
    intro hinit
    have := hs hinit
    rw [hmain] at this
    exact this
  | joined hcall hmain hexited => exact nofun
  | newService r hcall =>
    rw [newService_state, newService_main]
    exact hs
  | exchange c hcall hc => exact nofun
  | _ => exact hs

/-- A worker that `run` has passed has the task. -/
theorem Stepped.startless (h : Stepped configs s a s') (i : Fin router.workers)
    (hs : s.main.startless i) : s'.main.startless i ∨ .start ∈ (s'.station i).queue := by
  cases h with
  | made hcall hmain => exact .inl trivial
  | inited hcall hmain => exact .inl trivial
  | ask hcall hmain => exact .inl trivial
  | asked hcall hmain => exact .inl trivial
  | test hcall hmain =>
    refine .inl ?_
    show Main.startless (if _ then _ else _) i
    split <;> trivial
  | count hcall hmain => exact .inl trivial
  | counted hcall hmain =>
    refine .inl ?_
    show Main.startless (if _ then _ else _) i
    split <;> trivial
  | store hcall hmain => exact .inl (List.mem_finRange i)
  | @postStart j rest hcall hmain =>
    rw [hmain] at hs
    rcases List.mem_cons.mp hs with rfl | hrest
    · refine .inr ?_
      show _ ∈ ((s.setStation i _).station i).queue
      rw [setStation_self]
      exact List.mem_append_right _ (List.mem_singleton_self _)
    · exact .inl hrest
  | posted hcall hmain =>
    rw [hmain] at hs
    cases hs
  | joined hcall hmain hexited =>
    rw [hmain] at hs
    cases hs
  | newService r hcall =>
    rw [newService_main]
    exact .inl hs
  | _ => exact .inl hs

theorem Stepped.covered (h : Stepped configs s a s') (hs : Covered s)
    (hmarked : ∀ i, (s.station i).Marked) : Covered s' where
  early := h.early hs.early
  covered i serviceid hun := by
    -- a service that `run` covered is covered still
    have hmain : s.main.startless i → s'.main.startless i ∨ (s'.station i).Pending serviceid :=
      fun hless => (h.startless i hless).imp_right .inl
    have hchanged := h.changed i
    generalize s'.station i = t' at hchanged hun hmain ⊢
    cases hchanged with
    | same => exact (hs.covered i serviceid hun).elim hmain .inr
    | begin hpc =>
      refine (hs.covered i serviceid hun).elim hmain fun hpending => .inr (.inl ?_)
      exact hpending.queued (by simp [hpc])
    | claim => exact (hs.covered i serviceid hun).elim hmain .inr
    | post task =>
      refine (hs.covered i serviceid hun).elim hmain fun hpending => .inr ?_
      exact hpending.imp_left (List.mem_append_left _)
    | work hwork =>
      rcases hwork.unstarted (hmarked i) hun with hbefore | hpending
      · rcases hs.covered i serviceid hbefore with hless | hpending
        · exact hmain hless
        · rcases hwork.pending (hmarked i) hun hpending with hpending | hinit
          · exact .inr hpending
          · exact hmain (Main.startless_of_early (hs.early hinit) i)
      · exact .inr hpending

theorem marked_of_reach (h : (host router ι configs).Reach s) (i : Fin router.workers) :
    (s.station i).Marked := by
  have hboth : (s.station i).Sound ∧ (s.station i).Marked :=
    station_of_reach (P := fun t => t.Sound ∧ t.Marked)
      (fun i => ⟨Station.sound_make i, Station.marked_make i⟩)
      (fun _ _ _ ht hchanged => ⟨hchanged.sound ht.1, hchanged.marked ht.1 ht.2⟩) h i
  exact hboth.2

theorem covered_of_reach (h : (host router ι configs).Reach s) : Covered s := by
  refine h.invariant ?_ ?_
  · rintro s rfl
    exact covered_make
  · intro s a s' hreach hs hstep
    exact (step_cases hstep).covered hs (marked_of_reach hreach)

theorem started_once (h : (host router ι configs).Reach s) (i : Fin router.workers) :
    let t := s.station i
    t.starts.Nodup ∧ (∀ number ∈ t.starts, number < t.inited) ∧
    (s.main.posted → t.worker.state_ ≠ .exited → t.queue = [] →
      ∀ serviceid service, t.worker.services_.lookup serviceid = some service → service.ok_ = true →
        -- its own creation is not the task that the thread is in
        (∀ a, t.pc ≠ .added a serviceid) → service.start_ = true ∧ t.number serviceid ∈ t.starts) := by
  intro t
  have hsound : t.Sound := sound_of_reach h i
  have hmarked : t.Marked := marked_of_reach h i
  refine ⟨hmarked.nodup, fun number hnumber => hsound.emplaced_lt number (hmarked.sub hnumber),
    fun hposted _ hqueue serviceid service hlookup _ hpc => ?_⟩
  have hstart : service.start_ = true := by
    by_contra hfalse
    have hun : t.Unstarted serviceid := ⟨service, hlookup, Bool.eq_false_iff.mpr hfalse⟩
    rcases (covered_of_reach h).covered i serviceid hun with hless | hstart | ⟨a, ha⟩
    · exact Main.not_startless hposted i hless
    · rw [show (s.station i).queue = [] from hqueue] at hstart
      cases hstart
    · exact hpc a ha
  exact ⟨hstart, (hmarked.mark serviceid service hlookup).mp hstart⟩

/-- Everything the theorem asks of the state of the only worker. -/
private def settled (s : Host oneWorker Unit) : Bool :=
  let t := s.station onlyWorker
  let ok := (t.worker.services_.lookup 0x01000001).map Service.ok_
  match s.main, t.worker.state_, t.pc, t.queue, ok with
  | .running, .ready, .idle, [], some true => true
  | _, _, _, _, _ => false

/-- The creation of the only service looks at the server before `run` stores `ready`. -/
theorem started_once_init : ∃ s : Host oneWorker Unit, (host oneWorker Unit [anywhere]).Reach s ∧
    (s.station onlyWorker).starts = [0] ∧
    ∃ service, (s.station onlyWorker).worker.services_.lookup 0x01000001 = some service ∧
      service.start_ = true := by
  obtain ⟨s, hrun, hs⟩ := Option.map_eq_some_iff.mp (show
    (run [anywhere] (oneAdded ++ [.work onlyWorker fun _ => 0, .main, .main, .main, .main, .main,
      .main, .main, .work onlyWorker fun _ => 0])).map (fun s =>
      (settled s, (s.station onlyWorker).starts)) = some (true, [0]) by
    decide +kernel)
  obtain ⟨hsettled, hstarts⟩ := Prod.mk.inj hs
  have hreach := reach_run hrun
  unfold settled at hsettled
  dsimp only at hsettled
  split at hsettled
  next hmain hstate hpc hqueue hlookup =>
    obtain ⟨service, hservice, hok⟩ := Option.map_eq_some_iff.mp hlookup
    have hposted : s.main.posted := by
      rw [hmain]
      trivial
    have hexited : (s.station onlyWorker).worker.state_ ≠ .exited := by
      rw [hstate]
      decide
    obtain ⟨hstart, -⟩ := (started_once hreach onlyWorker).2.2 hposted hexited hqueue _ service
      hservice hok fun a ha => by
        rw [hpc] at ha
        cases ha
    exact ⟨s, hreach, hstarts, service, hservice, hstart⟩
  next => cases hsettled

end Host

end HappyServer.Services
