import HappyServer.Timer.Schedule

/-!
# The slot that is due

`dueKeys E s` are the ids in the slot of wheel 0 that tick `E + 1` drains, in the
order of the list.

* `pending_dueKeys`: they are the entries of the agenda for tick `E + 1`.
* `insertTimer_dueKeys`: a call of `insert_timer` within the tick puts its key into
  that very slot exactly when the tick ends a round of wheel 0 and it waits a round.
* `expired_drain`: so `expired` is `drain`, a queue of ids that such calls join, and it
  calls `on_timer` once for each due id exactly when there are none (`drain_iff`).
* `run_idle`: ticks for which nothing is due pass.
-/

namespace HappyServer.Timer

open Word Rotation TimerWheel BaseTimer

variable {σ : Type}

def dueKeys (E : Nat) (s : BaseTimer σ) : List TimerId :=
  match s.wheels with
  | [] => []
  | w :: _ => (w.array (E % WHEEL_SIZE)).map keyId

theorem dueKeys_cons (E : Nat) (s : BaseTimer σ) (w : TimerWheel WHEEL_SIZE)
    (ws : List (TimerWheel WHEEL_SIZE)) (hw : s.wheels = w :: ws) :
    dueKeys E s = (w.array (E % WHEEL_SIZE)).map keyId := by
  unfold dueKeys; rw [hw]

/-- The due slot is the part of the agenda that comes first. -/
theorem pending_dueKeys (E : Nat) (s : BaseTimer σ) (hs : Stands E s) :
    ∃ later, pending E s = later + ((dueKeys E s).map fun id => (E + 1, id) : List _) ∧
      ∀ e ∈ later, E + 1 < e.1 := by
  obtain ⟨w, ws, hw, -⟩ := hs.cons
  have h := agenda_front (by decide) E w ws
  rw [dueKeys_cons E s w ws hw, List.map_map]
  unfold pending
  rw [hw]
  exact h

theorem dueKeys_nil_of_lt (E : Nat) (s : BaseTimer σ) (hs : Stands E s)
    (h : ∀ e ∈ pending E s, E + 1 < e.1) : dueKeys E s = [] := by
  obtain ⟨later, hlater, -⟩ := pending_dueKeys E s hs
  rw [List.eq_nil_iff_forall_not_mem]
  intro id hid
  refine absurd (h (E + 1, id) ?_) (Nat.lt_irrefl _)
  rw [hlater]
  exact Multiset.mem_add.mpr (Or.inr (List.mem_map_of_mem hid))

/-- When a single call is pending, and it is due, it is the due slot. -/
theorem dueKeys_of_pending (E : Nat) (s : BaseTimer σ) (id : TimerId) (hs : Stands E s)
    (h : pending E s = {(E + 1, id)}) : dueKeys E s = [id] := by
  obtain ⟨later, hlater, hlt⟩ := pending_dueKeys E s hs
  rw [h] at hlater
  have hnone : later = 0 := by
    rw [Multiset.eq_zero_iff_forall_notMem]
    intro e he
    have hmem : e ∈ ({(E + 1, id)} : Multiset (Nat × TimerId)) := by
      rw [hlater]; exact Multiset.mem_add.mpr (Or.inl he)
    rw [Multiset.mem_singleton.mp hmem] at he
    exact absurd (hlt _ he) (Nat.lt_irrefl _)
  rw [hnone, zero_add, eq_comm, Multiset.coe_eq_singleton, List.map_eq_singleton_iff] at hlater
  obtain ⟨id', hid, he⟩ := hlater
  rw [hid, (Prod.mk.inj he).2]

theorem dueKeys_popHead (E : Nat) (s : BaseTimer σ) : dueKeys E (popHead s) = dueKeys E s := by
  unfold dueKeys popHead
  cases hw : s.wheels with
  | nil => simp [hw]
  | cons w ws => rfl

/-! ## What `insert_timer` adds to it -/

/-- The calls that, made in tick `E + 1`, put their key into the slot it drains. -/
def Hits (E : Nat) (a : Int × TimerId) : Prop :=
  E % WHEEL_SIZE = WHEEL_SIZE - 1 ∧ ticks a.1 = WHEEL_SIZE

instance (E : Nat) : DecidablePred (Hits E) := fun _ => inferInstanceAs (Decidable (_ ∧ _))

def hitIds (E : Nat) (arms : List (Int × TimerId)) : List TimerId :=
  (arms.filter fun a => Hits E a).map Prod.snd

theorem slotCount_eq_round (d : Int) (hd : Dur d) : slotCount d = WHEEL_SIZE ↔ ticks d = WHEEL_SIZE := by
  by_cases hf : Fits d
  · rw [slotCount_of_fits d hd hf]
  · have h1 := slotCount_of_not_fits d hd hf
    unfold Fits PRECISION at hf
    unfold ticks PRECISION WHEEL_SIZE at *
    omega

theorem insertTimer_dueKeys (E : Nat) (s : BaseTimer σ) (d : Int) (id : TimerId) (hd : Dur d)
    (hs : Stands (within E) s) :
    dueKeys E (s.insertTimer d id) = dueKeys E s ++ if Hits E (d, id) then [id] else [] := by
  obtain ⟨w, ws, hw, -⟩ := hs.cons
  have hal := hs.aligned
  have h1 := slotCount_pos d
  have h2 := slotCount_le d hd
  have hround := slotCount_eq_round d hd
  rw [hw] at hal
  generalize hm : slotCount d = m at h1 h2 hround
  have hkey : keyId (makeKey id (0 + (within E + m - 1) % WHEEL_SIZE * 2 ^ (0 * 8))) = id := by
    apply keyId_makeKey
    unfold WHEEL_SIZE
    omega
  have hins : (s.insertTimer d id).wheels = insertLoop id 0 0 m (w :: ws) := by
    unfold BaseTimer.insertTimer Timer.insertTimer
    rw [hw, hm]
  rw [insertLoop_cons id 0 0 m (within E) w ws (by decide) hal.1 h1 h2 (by norm_num)] at hins
  rw [dueKeys_cons E s w ws hw]
  by_cases hq : (within E + m - 1) / WHEEL_SIZE = within E / WHEEL_SIZE
  · rw [if_pos hq] at hins
    rw [dueKeys_cons E _ _ _ hins]
    by_cases hj : (within E + m - 1) % WHEEL_SIZE = E % WHEEL_SIZE
    · have hhit : Hits E (d, id) := by
        unfold Hits
        rw [← hround]
        unfold within WHEEL_SIZE at *
        omega
      rw [if_pos hhit, pushBack, set_array, if_pos hj.symm, List.map_append, List.map_singleton, hkey,
        hj]
    · have hhit : ¬Hits E (d, id) := by
        unfold Hits
        rw [← hround]
        unfold within WHEEL_SIZE at *
        omega
      rw [if_neg hhit, pushBack, set_array, if_neg (Ne.symm hj), List.append_nil]
  · rw [if_neg hq] at hins
    have hhit : ¬Hits E (d, id) := by
      unfold Hits
      rw [← hround]
      unfold within WHEEL_SIZE at *
      omega
    rw [dueKeys_cons E _ _ _ hins, if_neg hhit, List.append_nil]

theorem insertAll_dueKeys (E : Nat) (arms : List (Int × TimerId)) :
    ∀ s : BaseTimer σ, Stands (within E) s → (∀ a ∈ arms, Dur a.1) →
      dueKeys E (s.insertAll arms) = dueKeys E s ++ hitIds E arms := by
  induction arms with
  | nil => intro s _ _; exact (List.append_nil _).symm
  | cons a arms ih =>
    intro s hs h
    have ha := h a List.mem_cons_self
    obtain ⟨-, h1⟩ := insertTimer_pending E _ s a.1 a.2 hs (within_div E).symm ha
    have h2 := ih _ h1 fun a' h' => h a' (List.mem_cons_of_mem _ h')
    rw [insertTimer_dueKeys E s a.1 a.2 ha hs, List.append_assoc] at h2
    refine h2.trans (congrArg (dueKeys E s ++ ·) ?_)
    unfold hitIds
    rw [List.filter_cons]
    by_cases hhit : Hits E a <;> simp [hhit]

/-! ## `expired` over the slot -/

theorem popKey_nil (E : Nat) (s : BaseTimer σ) (hs : Stands (within E) s) :
    s.popKey (E % WHEEL_SIZE) = none ↔ dueKeys E s = [] := by
  obtain ⟨w, ws, hw, -⟩ := hs.cons
  rw [popKey_none s w ws _ hw, dueKeys_cons E s w ws hw, List.map_eq_nil_iff]

theorem popKey_dueKeys (E : Nat) (s s1 : BaseTimer σ) (key : Nat)
    (h : s.popKey (E % WHEEL_SIZE) = some (key, s1)) : dueKeys E s = keyId key :: dueKeys E s1 := by
  obtain ⟨w, ws, keys, hw, hk, rfl⟩ := popKey_some s s1 _ key h
  rw [dueKeys_cons E s w ws hw, hk, List.map_cons]
  rw [dueKeys_cons E _ (w.set (E % WHEEL_SIZE) keys) ws rfl, set_array, if_pos rfl]

/-- The ids for which `on_timer` was called. -/
def fired (events : List Event) : List TimerId :=
  events.filterMap fun
    | .fire id => some id
    | .arm _ _ => none

@[simp] theorem fired_append (a b : List Event) : fired (a ++ b) = fired a ++ fired b :=
  List.filterMap_append

@[simp] theorem fired_events (r : Fired σ) (id : TimerId) : fired (r.events id) = [id] := by
  unfold fired Fired.events
  rw [List.filterMap_cons, List.filterMap_map]
  simp only [List.cons.injEq, true_and]
  rw [List.filterMap_eq_nil_iff]
  intro a _
  rfl

/-- `expired` as what it does to the queue of due ids: the first leaves it, and the ids
armed for the slot being drained join it. -/
def drain (onTimer : σ → TimerId → Option (Fired σ)) (E : Nat) :
    (fuel : Nat) → σ → List TimerId → Option (σ × List Event)
  | 0, _, _ => none
  | _ + 1, c, [] => some (c, [])
  | fuel + 1, c, id :: ids => do
    let r ← onTimer c id
    let (c, events) ← drain onTimer E fuel r.child (ids ++ hitIds E (r.arms id))
    some (c, r.events id ++ events)

/-- **Refinement.**  `expired` on the wheels is `drain` on the due slot. -/
theorem expired_drain (onTimer : σ → TimerId → Option (Fired σ)) (hsane : Sane onTimer) (E : Nat)
    (fuel : Nat) :
    ∀ s : BaseTimer σ, Stands (within E) s →
      (expired onTimer (E % WHEEL_SIZE) fuel s).map (fun p => (p.1.child, p.2)) =
        drain onTimer E fuel s.child (dueKeys E s) := by
  induction fuel with
  | zero => intro s _; rfl
  | succ fuel ih =>
    intro s hs
    rw [expired]
    cases hpop : s.popKey (E % WHEEL_SIZE) with
    | none => rw [(popKey_nil E s hs).mp hpop]; rfl
    | some p =>
      obtain ⟨key, s1⟩ := p
      obtain ⟨-, h1, hchild⟩ := popKey_pending E _ s s1 key hs hpop
      rw [popKey_dueKeys E s s1 key hpop, drain, ← hchild]
      cases hr : onTimer s1.child (keyId key) with
      | none => simp only [hr]; rfl
      | some r =>
        have h2 : Stands (within E) { s1 with child := r.child } := h1.congr rfl
        have h3 := hsane _ _ _ hr
        have hrest := ih _ (insertAll_pending E _ (within_div E).symm _ _ h2 h3).2
        rw [insertAll_child, insertAll_dueKeys E _ _ h2 h3] at hrest
        have hkeys : dueKeys E { s1 with child := r.child } = dueKeys E s1 := rfl
        simp only [hr, Option.bind_eq_bind, Option.bind_some]
        rw [← hkeys, ← hrest]
        cases expired onTimer (E % WHEEL_SIZE) fuel
          ({ s1 with child := r.child }.insertAll (r.arms (keyId key))) <;> rfl

theorem processTick_drain (onTimer : σ → TimerId → Option (Fired σ)) (hsane : Sane onTimer)
    (fuel E : Nat) (s : BaseTimer σ) (hs : Stands E s) :
    (processTick onTimer fuel s).map (fun p => (p.1.child, p.2)) =
      if dueKeys E s = [] then some (s.child, []) else drain onTimer E fuel s.child (dueKeys E s) := by
  obtain ⟨w, ws, hw, -⟩ := hs.cons
  have hal := hs.aligned
  rw [hw] at hal
  have hfront : w.front ≠ [] ↔ ¬dueKeys E s = [] := by
    rw [dueKeys_cons E s w ws hw, List.map_eq_nil_iff, front, hal.1]
  have hchild : (popHead s).child = s.child := by
    unfold popHead
    rw [hw]
  rw [processTick_cons onTimer fuel s w ws hw, hal.1]
  by_cases hdue : dueKeys E s = []
  · rw [if_neg (mt hfront.mp (not_not.mpr hdue)), if_pos hdue, ← hchild]
    rfl
  · rw [if_pos (hfront.mpr hdue), if_neg hdue, Option.map_map, ← dueKeys_popHead, ← hchild]
    exact expired_drain onTimer hsane E fuel _ (stands_popHead E s hs).1

/-- `on_timer` for each id in order: the timers it arms. -/
def replay (onTimer : σ → TimerId → Option (Fired σ)) :
    σ → List TimerId → Option (List (Int × TimerId))
  | _, [] => some []
  | c, id :: ids => do
    let r ← onTimer c id
    let arms ← replay onTimer r.child ids
    some (r.arms id ++ arms)

theorem hitIds_append (E : Nat) (a b : List (Int × TimerId)) :
    hitIds E (a ++ b) = hitIds E a ++ hitIds E b := by
  unfold hitIds
  rw [List.filter_append, List.map_append]

theorem hitIds_eq_nil (E : Nat) (arms : List (Int × TimerId)) :
    hitIds E arms = [] ↔ ∀ a ∈ arms, ¬Hits E a := by
  unfold hitIds
  rw [List.map_eq_nil_iff, List.filter_eq_nil_iff]
  simp only [decide_eq_true_eq]

/-- Everything in the queue is called. -/
theorem length_le_fired (onTimer : σ → TimerId → Option (Fired σ)) (E fuel : Nat) :
    ∀ c ids c' events, drain onTimer E fuel c ids = some (c', events) →
      ids.length ≤ (fired events).length := by
  induction fuel with
  | zero => intro c ids c' events h; simp [drain] at h
  | succ fuel ih =>
    intro c ids c' events h
    cases ids with
    | nil => exact Nat.zero_le _
    | cons id ids =>
      simp only [drain, Option.bind_eq_bind, Option.bind_eq_some_iff, Option.some.injEq,
        Prod.mk.injEq, Prod.exists] at h
      obtain ⟨r, -, c1, events1, h1, -, rfl⟩ := h
      have := ih _ _ _ _ h1
      rw [List.length_append] at this
      rw [fired_append, fired_events, List.length_append, List.length_singleton, List.length_cons]
      omega

/-- The queue is called once and nothing else, exactly when nothing joined it. -/
theorem drain_iff (onTimer : σ → TimerId → Option (Fired σ)) (E : Nat) (ids : List TimerId) :
    ∀ c arms, replay onTimer c ids = some arms →
      ((∃ fuel c' events, drain onTimer E fuel c ids = some (c', events) ∧ fired events = ids) ↔
        hitIds E arms = []) := by
  induction ids with
  | nil =>
    intro c arms h
    simp only [replay, Option.some.injEq] at h
    subst h
    exact iff_of_true ⟨1, c, [], rfl, rfl⟩ rfl
  | cons id ids ih =>
    intro c arms h
    simp only [replay, Option.bind_eq_bind, Option.bind_eq_some_iff, Option.some.injEq] at h
    obtain ⟨r, hr, arms', harms, rfl⟩ := h
    rw [hitIds_append, List.append_eq_nil_iff, ← ih r.child arms' harms]
    constructor
    · rintro ⟨fuel, c', events, h, hfired⟩
      cases fuel with
      | zero => simp [drain] at h
      | succ fuel =>
        simp only [drain, hr, Option.bind_eq_bind, Option.bind_some, Option.bind_eq_some_iff,
          Option.some.injEq, Prod.mk.injEq, Prod.exists] at h
        obtain ⟨c1, events1, h1, rfl, rfl⟩ := h
        rw [fired_append, fired_events, List.singleton_append, List.cons.injEq] at hfired
        have hlen := length_le_fired onTimer E fuel _ _ _ _ h1
        rw [hfired.2, List.length_append] at hlen
        have hnone : hitIds E (r.arms id) = [] := List.length_eq_zero_iff.mp (by omega)
        rw [hnone, List.append_nil] at h1
        exact ⟨hnone, fuel, c1, events1, h1, hfired.2⟩
    · rintro ⟨hnone, fuel, c', events, h, hfired⟩
      refine ⟨fuel + 1, c', r.events id ++ events, ?_, by simp [hfired]⟩
      simp only [drain, hr, hnone, List.append_nil, h, Option.bind_eq_bind, Option.bind_some]

/-! ## Ticks with nothing due -/

/-- A running timer that owes no time: `update` with a clock `PRECISION` later processes
one tick. -/
structure Ready (s : BaseTimer σ) : Prop where
  running : s.stop = false
  tick : s.tick = 0
  started : 0 < s.previousTick

theorem Ready.insertTimer {s : BaseTimer σ} (h : Ready s) (d : Int) (id : TimerId) :
    Ready (s.insertTimer d id) := ⟨h.1, h.2, h.3⟩

theorem Ready.insertAll (arms : List (Int × TimerId)) :
    ∀ {s : BaseTimer σ}, Ready s → Ready (s.insertAll arms) := by
  induction arms with
  | nil => intro s h; exact h
  | cons a arms ih => intro s h; exact ih (h.insertTimer a.1 a.2)

theorem processTick_ready (onTimer : σ → TimerId → Option (Fired σ)) (fuel E : Nat)
    (s s' : BaseTimer σ) (events : List Event) (hs : Stands E s)
    (h : processTick onTimer fuel s = some (s', events)) (hr : Ready s) : Ready s' := by
  have hpop : Ready (popHead s) := by
    unfold popHead
    split
    · exact hr
    · exact ⟨hr.1, hr.2, hr.3⟩
  have hround : ∀ (t : BaseTimer σ) (before : List Event) key t1 (r : Fired σ), Ready t →
      t.popKey (E % WHEEL_SIZE) = some (key, t1) → onTimer t1.child (keyId key) = some r →
      Ready ({ t1 with child := r.child }.insertAll (r.arms (keyId key))) := by
    intro t _ key t1 r h1 hkey _
    obtain ⟨w, ws, keys, -, -, rfl⟩ := popKey_some t t1 _ key hkey
    exact Ready.insertAll _ ⟨h1.1, h1.2, h1.3⟩
  obtain ⟨t, h1, -, rfl⟩ :=
    processTick_rule onTimer fuel E (fun t _ => Ready t) hround s s' events hs h hpop
  exact ⟨h1.1, h1.2, h1.3⟩

theorem processTick_idle (onTimer : σ → TimerId → Option (Fired σ)) (hsane : Sane onTimer) (E : Nat)
    (s : BaseTimer σ) (hs : Stands E s) (hdue : dueKeys E s = []) :
    ∃ s', processTick onTimer 0 s = some (s', []) ∧ s'.child = s.child := by
  have h := processTick_drain onTimer hsane 0 E s hs
  rw [if_pos hdue, Option.map_eq_some_iff] at h
  obtain ⟨⟨s', events⟩, h1, h2⟩ := h
  simp only [Prod.mk.injEq] at h2
  obtain ⟨hchild, rfl⟩ := h2
  exact ⟨s', h1, hchild⟩

theorem run_ready (onTimer : σ → TimerId → Option (Fired σ)) (c : σ) :
    ∃ s, Run onTimer [] s ∧ Ready s ∧ s.child = c :=
  ⟨{ child := c, previousTick := 1 }, .update 0 1 0 _ [] (.init c) rfl, ⟨rfl, rfl, Int.one_pos⟩, rfl⟩

/-- One tick of a run. -/
theorem run_tick (onTimer : σ → TimerId → Option (Fired σ)) (fuel : Nat) (trace : List Entry)
    (s s' : BaseTimer σ) (events : List Event) (hrun : Run onTimer trace s) (hr : Ready s)
    (h : processTick onTimer fuel { s with previousTick := s.previousTick + PRECISION } =
      some (s', events)) :
    Run onTimer (trace ++ [.tick events]) s' := by
  obtain ⟨h1, h2, h3⟩ := hr
  refine .update fuel (s.previousTick + PRECISION) PRECISION s' [events] hrun ?_
  have hclock : s.readClock (s.previousTick + PRECISION) =
      { s with tick := PRECISION, previousTick := s.previousTick + PRECISION } := by
    have helapsed : s.tick + (s.previousTick + PRECISION - s.previousTick) = PRECISION := by omega
    unfold readClock
    simp only [if_neg (show ¬s.previousTick = 0 by omega), helapsed]
  have hloop : updateLoop onTimer fuel 1
      { s with tick := PRECISION, previousTick := s.previousTick + PRECISION } =
        some (s', [events]) := by
    rw [updateLoop]
    simp only [Int.sub_self]
    rw [if_neg (by rw [h1]; decide), ← h2, h]
    rfl
  unfold update
  rw [hclock]
  show (updateLoop onTimer fuel 1 _ >>= _) = _
  rw [hloop]
  rfl

/-- Ticks for which nothing is pending pass. -/
theorem run_idle (onTimer : σ → TimerId → Option (Fired σ)) (hsane : Sane onTimer) (k : Nat) :
    ∀ (trace : List Entry) (s : BaseTimer σ), Run onTimer trace s → Ready s →
      (∀ e ∈ pending (ticksOf trace) s, ticksOf trace + k < e.1) →
      ∃ s', Run onTimer (trace ++ List.replicate k (.tick [])) s' ∧ Ready s' ∧
        s'.child = s.child := by
  induction k with
  | zero => intro trace s hrun hr _; exact ⟨s, by simpa using hrun, hr, rfl⟩
  | succ k ih =>
    intro trace s hrun hr h
    obtain ⟨hs, -⟩ := run_law onTimer hsane hrun
    have hs' : Stands (ticksOf trace) { s with previousTick := s.previousTick + PRECISION } :=
      hs.congr rfl
    have hdue : dueKeys (ticksOf trace) s = [] :=
      dueKeys_nil_of_lt _ s hs fun e he => by have := h e he; omega
    obtain ⟨s1, h1, hchild⟩ := processTick_idle onTimer hsane _ _ hs' hdue
    have hrun1 := run_tick onTimer 0 trace s s1 [] hrun hr h1
    have hr1 := processTick_ready onTimer 0 _ _ s1 [] hs' h1
      ⟨hr.1, hr.2, by have := hr.3; unfold PRECISION; show 0 < s.previousTick + 10; omega⟩
    obtain ⟨-, hpend⟩ := processTick_pending onTimer hsane 0 _ _ s1 [] hs' h1
    have hticks : ticksOf (trace ++ [.tick []]) = ticksOf trace + 1 := by
      rw [ticksOf_append]; rfl
    obtain ⟨s2, h2, h3, h4⟩ := ih _ s1 hrun1 hr1 (by
      intro e he
      rw [hticks] at he ⊢
      have hmem : e ∈ pending (ticksOf trace) s := by
        have hsame : pending (ticksOf trace + 1) s1 = pending (ticksOf trace) s := by
          simpa [firesIn, duesIn, pending] using hpend
        rwa [hsame] at he
      have := h e hmem
      omega)
    refine ⟨s2, ?_, h3, h4.trans hchild⟩
    rw [List.append_assoc] at h2
    exact h2

theorem ticksOf_idle (k : Nat) : ticksOf (List.replicate k (.tick [])) = k := by
  induction k with
  | zero => rfl
  | succ k ih => rw [List.replicate_succ, ticksOf, ih]

theorem duesFrom_idle (k : Nat) : ∀ E, duesFrom E (List.replicate k (.tick [])) = [] := by
  induction k with
  | zero => intro E; rfl
  | succ k ih => intro E; rw [List.replicate_succ, duesFrom, ih]; rfl

theorem firesFrom_idle (k : Nat) : ∀ E, firesFrom E (List.replicate k (.tick [])) = [] := by
  induction k with
  | zero => intro E; rfl
  | succ k ih => intro E; rw [List.replicate_succ, firesFrom, ih]; rfl

/-- A timer armed first and then left alone. -/
theorem run_arm_idle (onTimer : σ → TimerId → Option (Fired σ)) (hsane : Sane onTimer) (c : σ)
    (d : Int) (id : TimerId) (k : Nat) (hd : Dur d) (hk : ∀ t, dueAt 0 0 d = some t → k < t) :
    ∃ s, Run onTimer (.arm d id :: List.replicate k (.tick [])) s ∧ Ready s ∧ s.child = c ∧
      pending k s = armed (dueAt 0 0 d) id := by
  obtain ⟨s, hrun, hr, hchild⟩ := run_ready onTimer c
  have hrun1 := Run.insert d id hrun hd
  obtain ⟨hs1, hlaw1⟩ := run_law onTimer hsane hrun1
  have hdues1 : (dues ([] ++ [.arm d id]) : List (Nat × TimerId)) = armed (dueAt 0 0 d) id :=
    List.append_nil _
  have hpend : pending 0 (s.insertTimer d id) = armed (dueAt 0 0 d) id := by
    rw [← hdues1, ← hlaw1]
    exact (add_zero _).symm
  obtain ⟨s2, hrun2, hr2, hchild2⟩ := run_idle onTimer hsane k _ _ hrun1 (hr.insertTimer d id) (by
    intro e he
    change e ∈ pending 0 (s.insertTimer d id) at he
    rw [hpend] at he
    simp only [armed, Multiset.mem_coe, Option.mem_toList, Option.map_eq_some_iff] at he
    obtain ⟨t, ht, rfl⟩ := he
    show 0 + k < t
    have := hk t ht
    omega)
  refine ⟨s2, hrun2, hr2, hchild2.trans hchild, ?_⟩
  obtain ⟨-, hlaw⟩ := run_law onTimer hsane hrun2
  have hticks : ticksOf ([] ++ [.arm d id] ++ List.replicate k (.tick [])) = k := ticksOf_idle k
  have hfires : fires ([] ++ [.arm d id] ++ List.replicate k (.tick [])) = [] := firesFrom_idle k 0
  have hdues : dues ([] ++ [.arm d id] ++ List.replicate k (.tick [])) = armed (dueAt 0 0 d) id := by
    show armed (dueAt 0 0 d) id ++ duesFrom 0 (List.replicate k (.tick [])) = _
    rw [duesFrom_idle, List.append_nil]
  rw [hticks, hfires, hdues] at hlaw
  rw [← hlaw]
  exact (add_zero _).symm

end HappyServer.Timer
