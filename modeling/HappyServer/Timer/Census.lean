import HappyServer.Timer.Lifetime

/-!
# No timer is lost or duplicated

`heldIds s` are the ids of all keys in the wheels.  A `worker_timer` keeps one key for
each entry of `timers_`, and no other.

* `onTimer_census`: a call of `on_timer` for a timer whose key was taken out arms as
  many keys for each id as `timers_` then has entries.
* `workerRun_census`: so it is between any two updates of a run, when no call of
  `insert_timer` met a duration that no wheel takes (`Storable`).
* `WorkerRun.expiredIds_eq`: the expiries noted in a run are the keys that left the
  wheels, in order.
-/

namespace HappyServer.Timer

open Word Rotation TimerWheel BaseTimer WorkerTimer

variable {ω : Type}

/-! ## Keys in the wheels -/

def wheelIds {Size : Nat} (w : TimerWheel Size) : Multiset TimerId :=
  gather Size (fun _ keys => ↑(keys.map keyId)) w.array

def heldIds {σ : Type} (s : BaseTimer σ) : Multiset TimerId := (s.wheels.map wheelIds).sum

theorem agenda_ids {Size : Nat} (ws : List (TimerWheel Size)) :
    ∀ i c, (agenda i c ws).map Prod.snd = (ws.map wheelIds).sum := by
  induction ws with
  | nil => intro i c; rfl
  | cons w ws ih =>
    intro i c
    have hw : (wheelAgenda i c w).map Prod.snd = wheelIds w := by
      unfold wheelAgenda wheelIds
      rw [map_gather]
      apply gather_congr
      intro j _
      unfold slotAgenda
      rw [Multiset.map_map, Multiset.map_coe]
      rfl
    rw [agenda, Multiset.map_add, ih, hw, List.map_cons, List.sum_cons]

/-- They are the ids the wheels stand for. -/
theorem heldIds_eq {σ : Type} (E : Nat) (s : BaseTimer σ) : heldIds s = (pending E s).map Prod.snd :=
  (agenda_ids s.wheels 0 E).symm

theorem heldIds_congr {σ τ : Type} {s : BaseTimer σ} {s' : BaseTimer τ} (h : s'.wheels = s.wheels) :
    heldIds s' = heldIds s := by
  unfold heldIds
  rw [h]

theorem heldIds_init {σ : Type} (c : σ) : heldIds ({ child := c } : BaseTimer σ) = 0 := by
  rw [heldIds_eq 0, pending_init]
  rfl

/-- Some wheel takes a timer of `d` ms, the heads showing position `p`. -/
def Storable (p : Nat) (d : Int) : Prop :=
  Fits d ∧ p % WHEEL_SIZE ^ 4 + ticks d ≤ WHEEL_SIZE ^ 4 + slack WHEEL_SIZE 3

theorem storable_iff (E p : Nat) (d : Int) (hd : Dur d) : Storable p d ↔ (dueAt E p d).isSome := by
  have h1 := slotCount_pos d
  have hdue : (dueAt E p d).isSome ↔ Stored WHEEL_SIZE 4 p (p + slotCount d - 1) := by
    unfold dueAt armDue
    by_cases hq : (p + slotCount d - 1) / WHEEL_SIZE = p / WHEEL_SIZE
    · rw [if_pos hq]
      exact iff_of_true rfl (Or.inl hq)
    · have hst : Stored WHEEL_SIZE 4 p (p + slotCount d - 1) ↔
          Stored WHEEL_SIZE 3 (p / WHEEL_SIZE) ((p + slotCount d - 1) / WHEEL_SIZE - 1) := or_iff_right hq
      rw [if_neg hq, hst]
      split <;> simp [*]
  rw [hdue]
  unfold Storable
  by_cases hf : Fits d
  · rw [slotCount_of_fits d hd hf] at h1 ⊢
    rw [stored_four_iff _ _ (by omega)]
    have hdm := Nat.div_add_mod p (WHEEL_SIZE ^ 4)
    generalize WHEEL_SIZE ^ 4 = R at hdm ⊢
    rw [Nat.mul_add, Nat.mul_one]
    simp only [hf, true_and]
    omega
  · simp only [hf, false_and, false_iff]
    exact not_stored_of_not_fits p d hd hf

/-- A stored timer adds a key of its id. -/
theorem insertTimer_heldIds {σ : Type} (E p : Nat) (s : BaseTimer σ) (d : Int) (id : TimerId)
    (hs : Stands p s) (hE : E / WHEEL_SIZE = p / WHEEL_SIZE) (hd : Dur d) :
    heldIds (s.insertTimer d id) = heldIds s + if (dueAt E p d).isSome then {id} else 0 := by
  rw [heldIds_eq E, heldIds_eq E, (insertTimer_pending E p s d id hs hE hd).1, Multiset.map_add]
  congr 1
  cases dueAt E p d <;> rfl

theorem insertAll_heldIds {σ : Type} (E p : Nat) (hE : E / WHEEL_SIZE = p / WHEEL_SIZE)
    (arms : List (Int × TimerId)) :
    ∀ s : BaseTimer σ, Stands p s → (∀ a ∈ arms, Dur a.1) → (∀ a ∈ arms, Storable p a.1) →
      heldIds (s.insertAll arms) = heldIds s + (arms.map Prod.snd : List _) := by
  induction arms with
  | nil => intro s _ _ _; exact (add_zero _).symm
  | cons a arms ih =>
    intro s hs hdur hst
    have ha := hdur a List.mem_cons_self
    have h1 := (insertTimer_pending E p s a.1 a.2 hs hE ha).2
    have h2 := insertTimer_heldIds E p s a.1 a.2 hs hE ha
    rw [if_pos ((storable_iff E p a.1 ha).mp (hst a List.mem_cons_self))] at h2
    have h3 := ih _ h1 (fun b hb => hdur b (List.mem_cons_of_mem _ hb))
      fun b hb => hst b (List.mem_cons_of_mem _ hb)
    rw [h2, add_assoc] at h3
    exact h3

/-! ## Entries of `timers_` -/

/-- How many entries `timers_` has for `id`. -/
def entries (c : WorkerTimer ω) (id : TimerId) : Nat := if (c.timers id).isSome then 1 else 0

/-- Between `c` and `c'`, entries were made for the timers armed. -/
def Grows (c c' : WorkerTimer ω) (armed : List (Int × TimerId)) : Prop :=
  (∀ id, entries c' id = entries c id + (armed.map Prod.snd).count id) ∧ ∀ a ∈ armed, Dur a.1

theorem Grows.refl {c c' : WorkerTimer ω} (h : c'.timers = c.timers) : Grows c c' [] := by
  refine ⟨fun id => ?_, fun a ha => by simp at ha⟩
  unfold entries
  rw [h]
  rfl

theorem Grows.trans {c c' c'' : WorkerTimer ω} {a b : List (Int × TimerId)} (h : Grows c c' a)
    (h' : Grows c' c'' b) : Grows c c'' (a ++ b) := by
  refine ⟨fun id => ?_, fun x hx => ?_⟩
  · rw [h'.1, h.1, List.map_append, List.count_append, Nat.add_assoc]
  · exact (List.mem_append.mp hx).elim (h.2 x) (h'.2 x)

theorem dur_of_precise (ctx : WorkerTimerContext) : Dur ctx.duration.toInt := by
  have h1 := ctx.precise
  have h2 := ctx.duration.toInt_lt
  unfold Dur
  unfold PRECISION at *
  omega

theorem grows_repeatTimer {c : WorkerTimer ω} {duration times : Int32} {serviceid : UInt32}
    {r : Repeated ω} (h : c.repeatTimer duration times serviceid = some r) : Grows c r.child r.armed := by
  obtain rfl | ⟨ctx, hnone, -, htimers, -, -, harmed⟩ := repeatTimer_cases h
  · exact .refl rfl
  · rw [harmed]
    refine ⟨fun id => ?_, fun a ha => ?_⟩
    · unfold entries
      rw [htimers]
      by_cases hid : id = r.id
      · subst hid
        simp [hnone]
      · rw [Function.update_of_ne hid, List.map_singleton, List.count_singleton]
        simp [Ne.symm hid]
    · rw [List.mem_singleton.mp ha]
      exact dur_of_precise ctx

theorem entries_remove (c : WorkerTimer ω) (id id' : TimerId) : entries (c.remove id) id' = entries c id' := by
  unfold entries
  rw [(remove_timers c id).1]
  by_cases hid : id' = id
  · subst hid
    simp
  · rw [Function.update_of_ne hid]

theorem grows_run {p : Prog ω} {c c' : WorkerTimer ω} {armed} (h : p.run c = some (c', armed)) :
    Grows c c' armed := by
  refine Prog.run_rule (Q := Grows) ?_ ?_ ?_ p h
  · intro c world
    exact .refl rfl
  · intro c duration times serviceid r c' armed hr ih
    exact (grows_repeatTimer hr).trans ih
  · intro c id c' armed ⟨hentries, hdur⟩
    exact ⟨fun id' => by rw [hentries, entries_remove], hdur⟩

theorem grows_callback {handler : Handler ω} {id : TimerId} {sid : UInt32} {r : Bool}
    {c c' : WorkerTimer ω} {armed} (h : callback handler id sid r c = some (c', armed)) :
    Grows c c' armed := by
  have hnote : Grows c (c.note (.of id (.call r))) [] := .refl rfl
  exact hnote.trans (grows_run (callback_some h))

/-- What a call of `on_timer` for `id` leaves: with the entry kept, the timers armed by
callbacks and `id` again; with the entry erased, only the former. -/
inductive Outcome (c : WorkerTimer ω) (id : TimerId) (r : Fired (WorkerTimer ω)) : Prop
  | unknown : c.timers id = none → r.child.timers = c.timers → r.armed = [] → r.duration = 0 →
      Outcome c id r
  | kept : entries c id = 1 → Grows c r.child r.armed → Dur r.duration → r.duration ≠ 0 →
      Outcome c id r
  | erased (c') : entries c id = 1 → Grows c c' r.armed →
      r.child.timers = Function.update c'.timers id none → r.duration = 0 → Outcome c id r

theorem duration_ne_zero (ctx : WorkerTimerContext) : ctx.duration.toInt ≠ 0 := by
  have := ctx.precise
  unfold PRECISION at this
  omega

theorem Grows.put {c c' : WorkerTimer ω} {a : List (Int × TimerId)} (h : Grows c c' a)
    {id : TimerId} {ctx' : WorkerTimerContext} (hctx' : c'.timers id = some ctx')
    (ctx : WorkerTimerContext) : Grows c (c'.put id (some ctx)) a := by
  refine ⟨fun id' => ?_, h.2⟩
  rw [← h.1]
  unfold entries
  rw [timers_put]
  by_cases hid : id' = id
  · subst hid
    rw [Function.update_self, hctx']
    rfl
  · rw [Function.update_of_ne hid]

theorem outcome_giveUp {handler : Handler ω} {id : TimerId} {sid : UInt32} {armed}
    {c c' : WorkerTimer ω} {r : Fired (WorkerTimer ω)} (hone : entries c id = 1) (hc : Grows c c' armed)
    (h : giveUp handler id sid armed c' = some r) : Outcome c id r := by
  obtain ⟨c1, armed1, h1, rfl⟩ := giveUp_some h
  exact .erased c1 hone (hc.trans (grows_callback h1)) rfl rfl

theorem entries_of_some {c : WorkerTimer ω} {id : TimerId} {ctx : WorkerTimerContext}
    (h : c.timers id = some ctx) : entries c id = 1 := by
  unfold entries
  rw [h]
  rfl

theorem onTimer_outcome {handler : Handler ω} {c : WorkerTimer ω} {id : TimerId}
    {r : Fired (WorkerTimer ω)} (h : onTimer handler c id = some r) : Outcome c id r := by
  have hnote : Grows c (c.note (.of id .expire)) [] := .refl rfl
  cases onTimer_cases h with
  | unknown hnone => exact .unknown hnone rfl rfl rfl
  | removed hctx _ hgive => exact outcome_giveUp (entries_of_some hctx) hnote hgive
  | @infinite ctx ctx' c1 armed hctx _ hcall _ _ =>
    exact .kept (entries_of_some hctx) (hnote.trans (grows_callback hcall)) (dur_of_precise ctx')
      (duration_ne_zero ctx')
  | @again ctx ctx' c1 armed hctx _ hcall hctx' _ _ =>
    exact .kept (entries_of_some hctx) ((hnote.trans (grows_callback hcall)).put hctx' _)
      (dur_of_precise ctx') (duration_ne_zero ctx')
  | @last ctx ctx' c1 armed _ hctx _ hcall hctx' _ _ hgive =>
    exact outcome_giveUp (entries_of_some hctx) ((hnote.trans (grows_callback hcall)).put hctx' _)
      hgive

theorem sane_onTimer (handler : Handler ω) : Sane (onTimer handler) := by
  intro c id r h a ha
  unfold Fired.arms at ha
  rcases onTimer_outcome h with ⟨-, -, harmed, hdur⟩ | ⟨-, hgrows, hdur, -⟩ | ⟨c', -, hgrows, -, hdur⟩
  · rw [harmed, hdur] at ha
    simp at ha
  · rcases List.mem_append.mp ha with ha | ha
    · exact hgrows.2 a ha
    · split at ha
      · rw [List.mem_singleton.mp ha]; exact hdur
      · simp at ha
  · rw [hdur] at ha
    exact hgrows.2 a (by simpa using ha)

/-- **`on_timer`.**  The key of `id` was taken out; when it had an entry, there are
afterwards as many keys for each id as entries. -/
theorem onTimer_census {handler : Handler ω} {c : WorkerTimer ω} {id : TimerId}
    {r : Fired (WorkerTimer ω)} (h : onTimer handler c id = some r) (hone : entries c id = 1)
    (id' : TimerId) :
    entries r.child id' + (if id' = id then 1 else 0) =
      entries c id' + ((r.arms id).map Prod.snd).count id' := by
  unfold Fired.arms
  rcases onTimer_outcome h with ⟨hnone, -, -, -⟩ | ⟨-, hgrows, -, hne⟩ | ⟨c', -, hgrows, herase, hdur⟩
  · unfold entries at hone
    rw [hnone] at hone
    cases hone
  · rw [if_pos hne, List.map_append, List.count_append, hgrows.1, Nat.add_assoc]
    congr 2
    rw [List.map_singleton, List.count_singleton]
    by_cases hid : id' = id
    · simp [hid]
    · simp [hid, Ne.symm hid]
  · rw [hdur, if_neg (not_not.mpr rfl), List.append_nil, ← hgrows.1]
    unfold entries
    rw [herase]
    by_cases hid : id' = id
    · subst hid
      have h1 := hgrows.1 id'
      rw [hone] at h1
      unfold entries at h1
      have hsome : (c'.timers id').isSome := by
        by_contra hnone
        rw [if_neg hnone] at h1
        omega
      rw [Function.update_self, if_pos rfl, if_pos hsome]
      rfl
    · rw [Function.update_of_ne hid, if_neg hid, Nat.add_zero]

/-! ## Runs -/

/-- The states a `worker_timer` reaches between calls, and how. -/
inductive WorkerRun (handler : Handler ω) : List Entry → BaseTimer (WorkerTimer ω) → Prop
  | init (world : ω) : WorkerRun handler [] { child := { world := world } }
  | setOnTimer {trace s} : WorkerRun handler trace s →
      WorkerRun handler trace { s with child := s.child.setOnTimer }
  | repeatTimer {trace s} (duration times serviceid s' r) : WorkerRun handler trace s →
      s.repeatTimer duration times serviceid = some (s', r) →
      WorkerRun handler (trace ++ r.armed.map fun a => .arm a.1 a.2) s'
  | remove {trace s} (id) : WorkerRun handler trace s →
      WorkerRun handler trace { s with child := s.child.remove id }
  | update {trace s} (fuel now_tick old_tick s' ticks) : WorkerRun handler trace s →
      s.update (onTimer handler) fuel now_tick = some (s', old_tick, ticks) →
      WorkerRun handler (trace ++ ticks.map .tick) s'
  | stop {trace s} : WorkerRun handler trace s → WorkerRun handler trace s.stopAllTimer
  | start {trace s} : WorkerRun handler trace s → WorkerRun handler trace s.startAllTimer

theorem repeatTimer_eq {s s' : BaseTimer (WorkerTimer ω)} {duration times : Int32}
    {serviceid : UInt32} {r : Repeated ω} (h : s.repeatTimer duration times serviceid = some (s', r)) :
    s.child.repeatTimer duration times serviceid = some r ∧
      s' = { s with child := r.child }.insertAll r.armed := by
  simp only [BaseTimer.repeatTimer, Option.bind_eq_bind, Option.bind_eq_some_iff,
    Option.some.injEq, Prod.mk.injEq] at h
  obtain ⟨r', hr, rfl, rfl⟩ := h
  exact ⟨hr, rfl⟩

theorem run_insertAll {σ : Type} {onTimer : σ → TimerId → Option (Fired σ)}
    (arms : List (Int × TimerId)) :
    ∀ {trace : List Entry} {s : BaseTimer σ}, Run onTimer trace s → (∀ a ∈ arms, Dur a.1) →
      Run onTimer (trace ++ arms.map fun a => .arm a.1 a.2) (s.insertAll arms) := by
  induction arms with
  | nil => intro trace s h _; rw [List.map_nil, List.append_nil]; exact h
  | cons a arms ih =>
    intro trace s h hdur
    have := ih (.insert a.1 a.2 h (hdur a List.mem_cons_self))
      fun b hb => hdur b (List.mem_cons_of_mem _ hb)
    rwa [List.append_assoc] at this

/-- It is a run of its `base_timer`. -/
theorem WorkerRun.run {handler : Handler ω} {trace : List Entry} {s : BaseTimer (WorkerTimer ω)}
    (h : WorkerRun handler trace s) : Run (onTimer handler) trace s := by
  induction h with
  | init world => exact .init _
  | setOnTimer _ ih => exact .child _ ih
  | repeatTimer duration times serviceid s' r _ hr ih =>
    obtain ⟨hchild, rfl⟩ := repeatTimer_eq hr
    exact run_insertAll r.armed (.child r.child ih) (grows_repeatTimer hchild).2
  | remove id _ ih => exact .child _ ih
  | update fuel now_tick old_tick s' ticks _ hu ih => exact .update fuel now_tick old_tick s' ticks ih hu
  | stop _ ih => exact .stop ih
  | start _ ih => exact .start ih

/-- A run of updates takes a `worker_timer` only where `Reach` says. -/
theorem WorkerRun.reach {handler : Handler ω} {trace : List Entry} {s : BaseTimer (WorkerTimer ω)}
    (h : WorkerRun handler trace s) : Reach handler s.child := by
  induction h with
  | init world => exact .init world
  | setOnTimer _ ih => exact .setOnTimer ih
  | repeatTimer duration times serviceid s' r _ hr ih =>
    obtain ⟨hchild, rfl⟩ := repeatTimer_eq hr
    rw [insertAll_child]
    exact .repeatTimer duration times serviceid r ih hchild
  | remove id _ ih => exact .remove id ih
  | @update trace s fuel now_tick old_tick s' ticks hrun hu ih =>
    obtain ⟨hs, -⟩ := run_law _ (sane_onTimer handler) hrun.run
    refine (update_stands_rule (onTimer handler) (sane_onTimer handler) fuel _
      (fun t _ => Reach handler t.child) (fun _ _ _ _ hP => hP) ?_ now_tick old_tick s s' ticks hu hs
      ih).2
    intro t _ t' events h1 h2 hstep
    exact processTick_child _ (Reach handler) (fun c id r hc hr => .onTimer id r hc hr) fuel _ t t'
      events h1 hstep h2
  | stop _ ih => exact ih
  | start _ ih => exact ih

/-! ## Expiries -/

/-- The ids of which `.expire` was noted, in order. -/
def expiredIds (log : List Note) : List TimerId :=
  log.filterMap fun
    | .of id .expire => some id
    | _ => none

@[simp] theorem expiredIds_append (a b : List Note) :
    expiredIds (a ++ b) = expiredIds a ++ expiredIds b := List.filterMap_append

theorem count_expire (id : TimerId) (log : List Note) :
    log.count (.of id .expire) = (expiredIds log).count id := by
  induction log with
  | nil => rfl
  | cons n log ih =>
    rw [← List.singleton_append, expiredIds_append, List.count_append, List.count_append, ih,
      Nat.add_right_cancel_iff]
    cases n with
    | arm id' d times sid => rfl
    | of id' what => cases what <;> simp [expiredIds, List.count_singleton]

theorem expiries_happened (id : TimerId) (log : List Note) :
    expiries (happened id log) = log.count (.of id .expire) := by
  induction log with
  | nil => rfl
  | cons n log ih =>
    rw [List.count_cons, ← ih]
    cases n with
    | arm id' d times sid => rfl
    | of id' what =>
      by_cases hid : id' = id
      · cases what <;> simp [happened, expiries, hid]
      · simp [happened, hid]

theorem expiredIds_repeatTimer {c : WorkerTimer ω} {duration times : Int32} {serviceid : UInt32}
    {r : Repeated ω} (h : c.repeatTimer duration times serviceid = some r) :
    expiredIds r.child.log = expiredIds c.log := by
  obtain rfl | ⟨-, -, -, -, hlog, -⟩ := repeatTimer_cases h
  · rfl
  · rw [hlog, expiredIds_append]
    exact List.append_nil _

theorem expiredIds_remove (c : WorkerTimer ω) (id : TimerId) :
    expiredIds (c.remove id).log = expiredIds c.log := by
  rw [(remove_timers c id).2.1, expiredIds_append]
  exact List.append_nil _

/-- Programs do not make timers expire. -/
theorem expiredIds_run {p : Prog ω} {c c' : WorkerTimer ω} {armed} (h : p.run c = some (c', armed)) :
    expiredIds c'.log = expiredIds c.log := by
  refine Prog.run_rule (Q := fun c c' _ => expiredIds c'.log = expiredIds c.log) ?_ ?_ ?_ p h
  · intro c world
    rfl
  · intro c duration times serviceid r c' armed hr ih
    exact ih.trans (expiredIds_repeatTimer hr)
  · intro c id c' armed ih
    exact ih.trans (expiredIds_remove c id)

theorem expiredIds_callback {handler : Handler ω} {id : TimerId} {sid : UInt32} {remove : Bool}
    {c c' : WorkerTimer ω} {armed} (h : callback handler id sid remove c = some (c', armed)) :
    expiredIds c'.log = expiredIds c.log := by
  rw [expiredIds_run (callback_some h), note, expiredIds_append]
  exact List.append_nil _

theorem expiredIds_giveUp {handler : Handler ω} {id : TimerId} {sid : UInt32} {armed}
    {c : WorkerTimer ω} {r : Fired (WorkerTimer ω)} (h : giveUp handler id sid armed c = some r) :
    expiredIds r.child.log = expiredIds c.log := by
  obtain ⟨c1, armed1, h1, rfl⟩ := giveUp_some h
  have hcall := expiredIds_callback h1
  exact hcall

/-- A call of `on_timer` notes one. -/
theorem expiredIds_onTimer {handler : Handler ω} {id : TimerId} {c : WorkerTimer ω}
    {r : Fired (WorkerTimer ω)} (h : onTimer handler c id = some r) :
    expiredIds r.child.log = expiredIds c.log ++ [id] := by
  have hnote : expiredIds (c.note (.of id .expire)).log = expiredIds c.log ++ [id] :=
    expiredIds_append _ _
  rw [← hnote]
  cases onTimer_cases h with
  | unknown _ => rfl
  | removed _ _ hgive => exact expiredIds_giveUp hgive
  | infinite _ _ hcall _ _ => exact expiredIds_callback hcall
  | again _ _ hcall _ _ _ =>
    have hput := expiredIds_callback hcall
    exact hput
  | last _ _ hcall _ _ _ hgive =>
    have hput := expiredIds_callback hcall
    exact (expiredIds_giveUp hgive).trans hput

theorem firesIn_ids (E : Nat) (events : List Event) : (firesIn E events).map Prod.snd = fired events := by
  induction events with
  | nil => rfl
  | cons e events ih =>
    rw [← List.singleton_append, firesIn_append, fired_append, List.map_append, ih]
    cases e <;> rfl

/-- In a tick, one is noted for each key that `expired` takes out. -/
theorem processTick_expiredIds {handler : Handler ω} {fuel E : Nat} {s s' : BaseTimer (WorkerTimer ω)}
    {events : List Event} (hs : Stands E s)
    (h : processTick (onTimer handler) fuel s = some (s', events)) :
    expiredIds s'.child.log = expiredIds s.child.log ++ fired events := by
  have hstart : expiredIds (popHead s).child.log = expiredIds s.child.log ++ fired [] := by
    have hchild : (popHead s).child = s.child := by unfold popHead; split <;> rfl
    rw [hchild]
    exact (List.append_nil _).symm
  have hround : ∀ (t : BaseTimer (WorkerTimer ω)) before key t1 (r : Fired (WorkerTimer ω)),
      expiredIds t.child.log = expiredIds s.child.log ++ fired before →
      t.popKey (E % WHEEL_SIZE) = some (key, t1) → onTimer handler t1.child (keyId key) = some r →
      expiredIds ({ t1 with child := r.child }.insertAll (r.arms (keyId key))).child.log =
        expiredIds s.child.log ++ fired (before ++ r.events (keyId key)) := by
    intro t before key t1 r ht hpop hr
    obtain ⟨w, ws, keys, -, -, rfl⟩ := popKey_some t t1 _ key hpop
    rw [insertAll_child, fired_append, fired_events, ← List.append_assoc, ← ht]
    exact expiredIds_onTimer hr
  obtain ⟨t, ht, -, rfl⟩ := processTick_rule (onTimer handler) fuel E
    (fun t before => expiredIds t.child.log = expiredIds s.child.log ++ fired before) hround s s' events
    hs h hstart
  exact ht

theorem fires_arms (arms : List (Int × TimerId)) :
    ∀ trace : List Entry, fires (trace ++ arms.map fun a => .arm a.1 a.2) = fires trace := by
  induction arms with
  | nil => intro trace; rw [List.map_nil, List.append_nil]
  | cons a arms ih =>
    intro trace
    rw [List.map_cons, ← List.singleton_append, ← List.append_assoc, ih, fires_arm]

/-- **Expiries are keys taken out**: in a run, `.expire` is noted once for each call of `on_timer` that
`expired` makes, in their order. -/
theorem WorkerRun.expiredIds_eq {handler : Handler ω} {trace : List Entry}
    {s : BaseTimer (WorkerTimer ω)} (h : WorkerRun handler trace s) :
    expiredIds s.child.log = (fires trace).map Prod.snd := by
  induction h with
  | init world => rfl
  | setOnTimer _ ih => exact ih
  | @repeatTimer trace s duration times serviceid s' r _ hr ih =>
    obtain ⟨hchild, rfl⟩ := repeatTimer_eq hr
    rw [insertAll_child, fires_arms, ← ih]
    exact expiredIds_repeatTimer hchild
  | @remove trace s id _ ih => exact (expiredIds_remove s.child id).trans ih
  | @update trace s fuel now_tick old_tick s' ticks hrun hu ih =>
    obtain ⟨hs, -⟩ := run_law _ (sane_onTimer handler) hrun.run
    refine (update_stands_rule (onTimer handler) (sane_onTimer handler) fuel _
      (fun t ticks => expiredIds t.child.log = (fires (trace ++ ticks.map .tick)).map Prod.snd)
      (fun _ _ _ _ hP => hP) ?_ now_tick old_tick s s' ticks hu hs (by rwa [List.map_nil, List.append_nil])).2
    intro t before t' events h1 h2 hstep
    rw [List.map_append, List.map_singleton, ← List.append_assoc, fires_tick, List.map_append, firesIn_ids,
      ← h2]
    exact processTick_expiredIds h1 hstep
  | stop _ ih => exact ih
  | start _ ih => exact ih

/-- So what `fire_counts` counts are the keys of `id` that left the wheels. -/
theorem WorkerRun.expiries_eq {handler : Handler ω} {trace : List Entry}
    {s : BaseTimer (WorkerTimer ω)} (h : WorkerRun handler trace s) (id : TimerId) :
    expiries (happened id s.child.log) = ((fires trace).map Prod.snd).count id := by
  rw [expiries_happened, count_expire, h.expiredIds_eq]

/-- One key for each entry of `timers_`, and no other. -/
def Census (s : BaseTimer (WorkerTimer ω)) : Prop :=
  ∀ id, Multiset.count id (heldIds s) = if (s.child.timers id).isSome then 1 else 0

/-- Every call of `insert_timer` met a duration that some wheel takes. -/
def Stores : (E : Nat) → List Entry → Prop
  | _, [] => True
  | E, .tick events :: trace =>
    (∀ d id, .arm d id ∈ events → Storable (within E) d) ∧ Stores (E + 1) trace
  | E, .arm d _ :: trace => Storable E d ∧ Stores E trace

theorem stores_append (a b : List Entry) :
    ∀ E, Stores E (a ++ b) ↔ Stores E a ∧ Stores (E + ticksOf a) b := by
  induction a with
  | nil => intro E; simp [Stores, ticksOf]
  | cons e a ih =>
    intro E
    cases e with
    | tick events =>
      simp only [List.cons_append, Stores, ih, ticksOf, and_assoc]
      rw [show E + 1 + ticksOf a = E + (ticksOf a + 1) by omega]
    | arm d id => simp only [List.cons_append, Stores, ih, ticksOf, and_assoc]

/-- What `expired` keeps in tick `E + 1`, while what it arms is stored. -/
def CensusIn (E : Nat) (s : BaseTimer (WorkerTimer ω)) (events : List Event) : Prop :=
  Stands (within E) s ∧ ((∀ d id, .arm d id ∈ events → Storable (within E) d) → Census s)

/-- A round of `expired`: the key taken out is that of an entry. -/
theorem census_round {handler : Handler ω} {E : Nat} {s s1 : BaseTimer (WorkerTimer ω)}
    {events : List Event} {key : Nat} {r : Fired (WorkerTimer ω)} (h : CensusIn E s events)
    (hpop : s.popKey (E % WHEEL_SIZE) = some (key, s1))
    (hr : onTimer handler s1.child (keyId key) = some r) :
    CensusIn E ({ s1 with child := r.child }.insertAll (r.arms (keyId key)))
      (events ++ r.events (keyId key)) := by
  obtain ⟨hs, hcensus⟩ := h
  obtain ⟨hpend, hs1, hchild⟩ := popKey_pending E _ s s1 key hs hpop
  have hs2 : Stands (within E) { s1 with child := r.child } := hs1.congr rfl
  have hdur := sane_onTimer handler _ _ _ hr
  refine ⟨(insertAll_pending E _ (within_div E).symm _ _ hs2 hdur).2, fun hst => ?_⟩
  have hbefore := hcensus fun d id hm => hst d id (List.mem_append_left _ hm)
  have hheld := insertAll_heldIds E _ (within_div E).symm _ _ hs2 hdur fun a ha =>
    hst a.1 a.2 (List.mem_append_right _
      (List.mem_cons_of_mem _ (List.mem_map.mpr ⟨a, ha, rfl⟩)))
  have hpop' : heldIds s = heldIds s1 + {keyId key} := by
    rw [heldIds_eq E, heldIds_eq E, hpend, Multiset.map_add]
    rfl
  have hcount : ∀ id, entries s1.child id =
      Multiset.count id (heldIds s1) + if id = keyId key then 1 else 0 := by
    intro id
    have := hbefore id
    rw [hpop', Multiset.count_add, Multiset.count_singleton] at this
    rw [entries, hchild]
    exact this.symm
  -- the key was there, so it was the only one and there is an entry
  have hone : entries s1.child (keyId key) = 1 := by
    have h1 := hcount (keyId key)
    have h2 : entries s1.child (keyId key) ≤ 1 := by unfold entries; split <;> decide
    rw [if_pos rfl] at h1
    omega
  intro id
  have hstep := onTimer_census hr hone id
  rw [hcount] at hstep
  rw [hheld, insertAll_child, Multiset.count_add, Multiset.coe_count]
  show Multiset.count id (heldIds s1) + _ = entries r.child id
  omega

/-- A tick. -/
theorem census_tick {handler : Handler ω} {fuel E : Nat} {s s' : BaseTimer (WorkerTimer ω)}
    {events : List Event} (hs : Stands E s) (hcensus : Census s)
    (hst : ∀ d id, .arm d id ∈ events → Storable (within E) d)
    (h : processTick (onTimer handler) fuel s = some (s', events)) : Census s' := by
  obtain ⟨hpop, hpend⟩ := stands_popHead E s hs
  have hstart : CensusIn E (popHead s) [] := by
    refine ⟨hpop, fun _ id => ?_⟩
    have hchild : (popHead s).child = s.child := by unfold popHead; split <;> rfl
    rw [heldIds_eq E, hpend, ← heldIds_eq, hchild]
    exact hcensus id
  obtain ⟨t, ⟨h1, h2⟩, hnone, rfl⟩ := processTick_rule (onTimer handler) fuel E (CensusIn E)
    (fun _ _ _ _ _ hP hp hr => census_round hP hp hr) s s' events hs h hstart
  intro id
  rw [heldIds_eq (E + 1), (cascade_pending E t h1 hnone).2, ← heldIds_eq]
  exact h2 hst id

theorem storable_of_stores (arms : List (Int × TimerId)) (E : Nat)
    (h : Stores E (arms.map fun a => .arm a.1 a.2)) : ∀ a ∈ arms, Storable E a.1 := by
  induction arms with
  | nil => intro a ha; simp at ha
  | cons b arms ih =>
    intro a ha
    rcases List.mem_cons.mp ha with rfl | ha
    · exact h.1
    · exact ih h.2 a ha

theorem workerRun_census {handler : Handler ω} {trace : List Entry} {s : BaseTimer (WorkerTimer ω)}
    (h : WorkerRun handler trace s) (hst : Stores 0 trace) : Census s := by
  induction h with
  | init world =>
    intro id
    rw [heldIds_init]
    rfl
  | setOnTimer _ ih => exact ih hst
  | @repeatTimer trace s duration times serviceid s' r hrun hr ih =>
    rw [stores_append, Nat.zero_add] at hst
    obtain ⟨hchild, rfl⟩ := repeatTimer_eq hr
    obtain ⟨hgrows, hdur⟩ := grows_repeatTimer hchild
    obtain ⟨hs, -⟩ := run_law _ (sane_onTimer handler) hrun.run
    have hs' : Stands (ticksOf trace) { s with child := r.child } := hs.congr rfl
    have hheld : heldIds { s with child := r.child } = heldIds s := rfl
    intro id
    rw [insertAll_heldIds _ _ rfl _ _ hs' hdur (storable_of_stores _ _ hst.2), insertAll_child, hheld,
      Multiset.count_add, Multiset.coe_count, ih hst.1 id]
    exact (hgrows id).symm
  | remove id' _ ih =>
    intro id
    have := ih hst id
    exact this.trans (entries_remove _ id' id).symm
  | @update trace s fuel now_tick old_tick s' ticks hrun hu ih =>
    rw [stores_append, Nat.zero_add] at hst
    obtain ⟨hs, -⟩ := run_law _ (sane_onTimer handler) hrun.run
    refine (update_stands_rule (onTimer handler) (sane_onTimer handler) fuel _
      (fun t ticks => Stores (ticksOf trace) (ticks.map .tick) → Census t) (fun _ _ _ _ hP => hP) ?_
      now_tick old_tick s s' ticks hu hs fun _ => ih hst.1).2 hst.2
    intro t before t' events h1 h2 hstep hst'
    rw [List.map_append, stores_append, ticksOf_ticks] at hst'
    exact census_tick h1 (h2 hst'.1) hst'.2.1 hstep
  | stop _ ih => exact ih hst
  | start _ ih => exact ih hst

/-- **No timer is lost or duplicated**: between two updates there is one key for each
entry of `timers_` and no other, and the id `repeat` takes is in no wheel. -/
theorem one_key_each (handler : Handler ω) (trace : List Entry) (s : BaseTimer (WorkerTimer ω))
    (h : WorkerRun handler trace s) (hst : Stores 0 trace) :
    Census s ∧ ∀ duration times serviceid s' r,
      s.repeatTimer duration times serviceid = some (s', r) → r.armed = [] ∨ r.id ∉ heldIds s := by
  have hcensus := workerRun_census h hst
  refine ⟨hcensus, fun duration times serviceid s' r hr => ?_⟩
  obtain rfl | ⟨ctx, hnone, -⟩ := repeatTimer_cases (repeatTimer_eq hr).1
  · exact Or.inl rfl
  · right
    rw [← Multiset.count_eq_zero, hcensus, hnone]
    rfl

/-- Timer 1 is armed twice; in its first expiry the callback arms timer 2. -/
theorem one_key_each_rearmed :
    ∃ s, WorkerRun (fun (_ : Unit) _ _ _ => .repeatTimer 20 1 7 fun _ => .done ())
        [.arm 10 1, .tick [.fire 1, .arm 20 2, .arm 10 1]] s ∧
      Multiset.count 1 (heldIds s) = 1 ∧ Multiset.count 2 (heldIds s) = 1 := by
  obtain ⟨s, hrun, hone, htwo⟩ : ∃ s,
      WorkerRun (fun (_ : Unit) _ _ _ => .repeatTimer 20 1 7 fun _ => .done ())
        [.arm 10 1, .tick [.fire 1, .arm 20 2, .arm 10 1]] s ∧
      (s.child.timers 1).isSome ∧ (s.child.timers 2).isSome :=
    ⟨_, .update 2 11 10 _ [[.fire 1, .arm 20 2, .arm 10 1]]
      (.update 0 1 0 _ [] (.repeatTimer 10 2 7 _ _ (.setOnTimer (.init ())) rfl) rfl) rfl, rfl, rfl⟩
  have hstores : Stores 0 [.arm 10 1, .tick [.fire 1, .arm 20 2, .arm 10 1]] := by
    refine ⟨⟨by decide, by decide⟩, fun d id hmem => ?_, trivial⟩
    simp only [List.mem_cons, reduceCtorEq, Event.arm.injEq, List.not_mem_nil, or_false, false_or] at hmem
    obtain ⟨rfl, rfl⟩ | ⟨rfl, rfl⟩ := hmem
    · exact ⟨by decide, by decide⟩
    · exact ⟨by decide, by decide⟩
  obtain ⟨hcensus, -⟩ := one_key_each _ _ s hrun hstores
  refine ⟨s, hrun, ?_, ?_⟩
  · rw [hcensus, if_pos hone]
  · rw [hcensus, if_pos htwo]

/-- A timer of 2147483639 ms has an entry and no key. -/
theorem not_one_key_each :
    ¬∀ (ω : Type) (handler : Handler ω) (trace : List Entry) (s : BaseTimer (WorkerTimer ω)),
      WorkerRun handler trace s →
      (∀ d id, Entry.arm d id ∈ trace → 10 ≤ d ∧ d ≤ 2147483640) →
      (∀ events d id, Entry.tick events ∈ trace → .arm d id ∈ events → 10 ≤ d ∧ d ≤ 2147483640) →
      Census s := by
  intro hall
  obtain ⟨s, hrun, hwheels, hsome⟩ : ∃ s : BaseTimer (WorkerTimer Unit),
      WorkerRun (fun (_ : Unit) _ _ _ => .done ()) [.arm 2147483639 1] s ∧
        s.wheels = (({ child := () } : BaseTimer Unit).insertTimer 2147483639 1).wheels ∧
        (s.child.timers 1).isSome :=
    ⟨_, .repeatTimer 2147483639 1 7 _ _ (.setOnTimer (.init ())) rfl, rfl, rfl⟩
  have hd : Dur 2147483639 := by decide
  have hlost : (dueAt 0 0 2147483639).isSome = false := by
    rw [Bool.eq_false_iff, ne_eq, ← storable_iff 0 0 _ hd]
    exact fun h => absurd h.1 (by decide)
  have hheld := insertTimer_heldIds 0 0 ({ child := () } : BaseTimer Unit) 2147483639 1
    (stands_init ()) rfl hd
  rw [hlost, if_neg Bool.false_ne_true, add_zero, heldIds_init] at hheld
  have h := hall Unit _ _ s hrun
    (fun d id hm => by
      simp only [List.mem_singleton, Entry.arm.injEq] at hm
      rw [hm.1]
      decide)
    (fun events d id hm => by simp at hm) 1
  rw [(heldIds_congr hwheels).trans hheld, if_pos hsome] at h
  cases h

end HappyServer.Timer
