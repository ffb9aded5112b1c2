import HappyServer.Timer.Schedule

/-!
# Batches of updates

`update` is called by the worker's ticker and after every message, at any readings of the clock.
How the readings are split over calls does not matter (`updates_eq_update`): what a tick does
(`processTick`) does not look at the clock, and `tick_` carries what is left of one.

* `Clocked onTimer p trace s`: `s` is reached with positive readings that never fall, the last
  of them `p` (0 before the first).
* `rounds`: the ticks of `update` without the clock.
-/

namespace HappyServer.Timer

open BaseTimer

variable {σ : Type}

/-- `update` at each reading. -/
def BaseTimer.updates (onTimer : σ → TimerId → Option (Fired σ)) (fuel : Nat) :
    List Int → BaseTimer σ → Option (BaseTimer σ × List (List Event))
  | [], s => some (s, [])
  | now_tick :: readings, s => do
    let (s, _, ticks) ← s.update onTimer fuel now_tick
    let (s, more) ← s.updates onTimer fuel readings
    some (s, ticks ++ more)

inductive Clocked (onTimer : σ → TimerId → Option (Fired σ)) :
    Int → List Entry → BaseTimer σ → Prop
  | init (c : σ) : Clocked onTimer 0 [] { child := c }
  | update {p trace s} (fuel now_tick old_tick s' ticks) : Clocked onTimer p trace s →
      0 < now_tick → p ≤ now_tick → s.update onTimer fuel now_tick = some (s', old_tick, ticks) →
      Clocked onTimer now_tick (trace ++ ticks.map .tick) s'
  | insert {p trace s} (d id) : Clocked onTimer p trace s →
      Clocked onTimer p (trace ++ [.arm d id]) (s.insertTimer d id)
  | child {p trace s} (c) : Clocked onTimer p trace s → Clocked onTimer p trace { s with child := c }
  | stop {p trace s} : Clocked onTimer p trace s → Clocked onTimer p trace s.stopAllTimer
  | start {p trace s} : Clocked onTimer p trace s → Clocked onTimer p trace s.startAllTimer

/-! ## Ticks without the clock -/

def BaseTimer.setClock (s : BaseTimer σ) (stop : Bool) (tick previousTick : Int) : BaseTimer σ :=
  { s with stop := stop, tick := tick, previousTick := previousTick }

section

variable {onTimer : σ → TimerId → Option (Fired σ)} {fuel : Nat} {s s' : BaseTimer σ}
  {stop stop' : Bool} {x x' y y' : Int}

@[simp] theorem setClock_setClock :
    (s.setClock stop x y).setClock stop' x' y' = s.setClock stop' x' y' := rfl

theorem setClock_self : s.setClock s.stop s.tick s.previousTick = s := rfl

theorem insertAll_setClock (arms : List (Int × TimerId)) :
    ∀ s : BaseTimer σ, (s.setClock stop x y).insertAll arms = (s.insertAll arms).setClock stop x y := by
  induction arms with
  | nil => intro s; rfl
  | cons a arms ih => intro s; exact ih (s.insertTimer a.1 a.2)

theorem popKey_setClock (slot : Nat) :
    (s.setClock stop x y).popKey slot
      = (s.popKey slot).map fun r => (r.1, r.2.setClock stop x y) := by
  unfold popKey
  cases hw : s.wheels with
  | nil => simp [setClock, hw]
  | cons wheel rest => cases hk : wheel.array slot <;> simp [setClock, hw, hk]

theorem expired_setClock (onTimer : σ → TimerId → Option (Fired σ)) (fuel : Nat) (stop : Bool)
    (x y : Int) (slot : Nat) : ∀ s : BaseTimer σ,
    expired onTimer slot fuel (s.setClock stop x y)
      = (expired onTimer slot fuel s).map fun r => (r.1.setClock stop x y, r.2) := by
  induction fuel with
  | zero => intro s; rfl
  | succ fuel ih =>
    intro s
    rw [expired, expired, popKey_setClock]
    cases hpop : s.popKey slot with
    | none => rfl
    | some r =>
      obtain ⟨key, s₁⟩ := r
      simp only [Option.map_some]
      cases hfired : onTimer s₁.child (keyId key) with
      | none => simp [setClock, hfired]
      | some r =>
        have hrest := ih ({ s₁ with child := r.child }.insertAll (r.arms (keyId key)))
        rw [← insertAll_setClock] at hrest
        have hfired' : onTimer (s₁.setClock stop x y).child (keyId key) = some r := hfired
        simp only [hfired', Option.bind_eq_bind, Option.bind_some, Option.map_bind]
        show (expired onTimer slot fuel
          (({ s₁ with child := r.child }.setClock stop x y).insertAll (r.arms (keyId key)))).bind _ = _
        rw [hrest, Option.bind_map]
        rfl

theorem processTick_setClock (onTimer : σ → TimerId → Option (Fired σ)) (fuel : Nat)
    (s : BaseTimer σ) (stop : Bool) (x y : Int) :
    processTick onTimer fuel (s.setClock stop x y)
      = (processTick onTimer fuel s).map fun r => (r.1.setClock stop x y, r.2) := by
  unfold processTick
  cases hw : s.wheels with
  | nil => simp [setClock, hw]
  | cons wheel rest =>
    simp only [setClock, hw]
    split
    · have hexp := expired_setClock onTimer fuel stop x y wheel.head
        { s with wheels := wheel.popFront :: rest }
      simp only [setClock] at hexp
      simp only [hexp, Option.bind_eq_bind, Option.map_bind, Option.bind_map]
      rfl
    · rfl

/-- `n` ticks. -/
def rounds (onTimer : σ → TimerId → Option (Fired σ)) (fuel : Nat) :
    Nat → BaseTimer σ → Option (BaseTimer σ × List (List Event))
  | 0, s => some (s, [])
  | n + 1, s => do
    let (s, events) ← processTick onTimer fuel s
    let (s, ticks) ← rounds onTimer fuel n s
    some (s, events :: ticks)

theorem rounds_setClock (onTimer : σ → TimerId → Option (Fired σ)) (fuel : Nat) (stop : Bool)
    (x y : Int) (n : Nat) : ∀ s : BaseTimer σ,
    rounds onTimer fuel n (s.setClock stop x y)
      = (rounds onTimer fuel n s).map fun r => (r.1.setClock stop x y, r.2) := by
  induction n with
  | zero => intro s; rfl
  | succ n ih =>
    intro s
    rw [rounds, rounds, processTick_setClock]
    cases processTick onTimer fuel s with
    | none => rfl
    | some r =>
      simp only [Option.map_some, Option.bind_eq_bind, Option.bind_some, ih, Option.bind_map,
        Option.map_bind]
      rfl

theorem rounds_length (n : Nat) : ∀ {s s' : BaseTimer σ} {ticks : List (List Event)},
    rounds onTimer fuel n s = some (s', ticks) → ticks.length = n := by
  induction n with
  | zero =>
    intro s s' ticks h
    cases h
    rfl
  | succ n ih =>
    intro s s' ticks h
    simp only [rounds, Option.bind_eq_bind, Option.bind_eq_some_iff, Option.some.injEq,
      Prod.mk.injEq] at h
    obtain ⟨⟨s₁, events⟩, -, ⟨s₂, more⟩, hmore, rfl, rfl⟩ := h
    rw [List.length_cons, ih hmore]

theorem rounds_add (n m : Nat) : ∀ s : BaseTimer σ,
    rounds onTimer fuel (n + m) s
      = (rounds onTimer fuel n s).bind fun r =>
          (rounds onTimer fuel m r.1).map fun q => (q.1, r.2 ++ q.2) := by
  induction n with
  | zero =>
    intro s
    rw [Nat.zero_add, rounds, Option.bind_some]
    simp
  | succ n ih =>
    intro s
    rw [Nat.succ_add, rounds, rounds]
    cases processTick onTimer fuel s with
    | none => rfl
    | some r =>
      simp only [Option.bind_eq_bind, Option.bind_some, ih, Option.bind_assoc]
      congr 1
      funext q
      cases rounds onTimer fuel m q.1 <;> simp

/-- The loop of `update`, not stopped: ticks, and `tick_` lowered by each. -/
theorem updateLoop_eq (n : Nat) : ∀ s : BaseTimer σ, s.stop = false →
    updateLoop onTimer fuel n s
      = (rounds onTimer fuel n s).map fun r =>
          (r.1.setClock false (s.tick - n * PRECISION) s.previousTick, r.2) := by
  induction n with
  | zero =>
    intro s hstop
    simp [updateLoop, rounds, setClock, ← hstop]
  | succ n ih =>
    intro s hstop
    have hlow : { s with stop := false, tick := s.tick - PRECISION }
        = s.setClock false (s.tick - PRECISION) s.previousTick := rfl
    rw [updateLoop, rounds]
    simp only [hstop, Bool.false_eq_true, if_false]
    rw [hlow, processTick_setClock]
    cases processTick onTimer fuel s with
    | none => rfl
    | some r =>
      simp only [Option.map_some, Option.bind_eq_bind, Option.bind_some]
      rw [ih _ rfl, rounds_setClock]
      cases rounds onTimer fuel n r.1 with
      | none => rfl
      | some q =>
        simp only [setClock, Option.map_some, Option.bind_some, Option.some.injEq, Prod.mk.injEq,
          BaseTimer.mk.injEq, and_true, true_and]
        push_cast
        ring

/-! ## `update` -/

theorem readClock_eq (hstop : s.stop = false) (hprev : s.previousTick ≠ 0) (now_tick : Int) :
    s.readClock now_tick = s.setClock false (s.tick + (now_tick - s.previousTick)) now_tick := by
  rw [readClock, if_neg hprev, setClock, ← hstop]

/-- The ticks in `ms` milliseconds. -/
def ticksIn (ms : Int) : Nat := (ms / PRECISION).toNat

theorem update_eq (hstop : s.stop = false) (hprev : s.previousTick ≠ 0) (now_tick : Int) :
    s.update onTimer fuel now_tick
      = (rounds onTimer fuel (ticksIn (s.tick + (now_tick - s.previousTick))) s).map fun r =>
          let ms := s.tick + (now_tick - s.previousTick)
          (r.1.setClock false (ms - ticksIn ms * PRECISION) now_tick, ms, r.2) := by
  rw [update, readClock_eq hstop hprev]
  simp only [Option.bind_eq_bind]
  rw [updateLoop_eq _ _ rfl, ticksIn]
  show (Option.map _ (rounds onTimer fuel _ (s.setClock false _ now_tick))).bind _ = _
  rw [rounds_setClock, Option.map_map, Option.bind_map, Option.map_eq_bind]
  rfl

/-- `update` at two readings is `update` at the second. -/
theorem update_update (hstop : s.stop = false) (hprev : 0 < s.previousTick) (htick : 0 ≤ s.tick)
    {t t' : Int} (ht : s.previousTick ≤ t) (ht' : t ≤ t') :
    ((s.update onTimer fuel t).bind fun r =>
        (r.1.update onTimer fuel t').map fun q => (q.1, r.2.2 ++ q.2.2))
      = (s.update onTimer fuel t').map fun q => (q.1, q.2.2) := by
  have hsplit : ticksIn (s.tick + (t' - s.previousTick))
      = ticksIn (s.tick + (t - s.previousTick))
        + ticksIn (s.tick + (t - s.previousTick)
            - ticksIn (s.tick + (t - s.previousTick)) * PRECISION + (t' - t)) := by
    unfold ticksIn PRECISION
    omega
  rw [update_eq hstop (by omega), update_eq hstop (by omega), hsplit, rounds_add, Option.bind_map,
    Option.map_bind, Option.map_bind]
  congr 1
  funext r
  simp only [Function.comp_apply]
  rw [update_eq rfl (by show t ≠ 0; omega)]
  show Option.map _ (Option.map _ (rounds onTimer fuel _ (r.1.setClock false _ t))) = _
  rw [rounds_setClock]
  set ms := s.tick + (t - s.previousTick) with hms
  have htotal : s.tick + (t' - s.previousTick) = ms + (t' - t) := by omega
  rw [htotal]
  show Option.map _ (Option.map _ (Option.map _ (rounds onTimer fuel (ticksIn
    (ms - ticksIn ms * PRECISION + (t' - t))) r.1))) = _
  cases rounds onTimer fuel (ticksIn (ms - ticksIn ms * PRECISION + (t' - t))) r.1 with
  | none => rfl
  | some q =>
    have hleft : (ticksIn (ms + (t' - t)) : Int)
        = ticksIn ms + ticksIn (ms - ticksIn ms * PRECISION + (t' - t)) := by
      rw [← htotal, hsplit, Nat.cast_add]
    simp only [Option.map_some, Option.some.injEq, Prod.mk.injEq, and_true, setClock_setClock]
    rw [hleft]
    show q.1.setClock false (ms - ticksIn ms * PRECISION + (t' - t)
      - ticksIn (ms - ticksIn ms * PRECISION + (t' - t)) * PRECISION) t' = _
    congr 1
    ring

/-- The state after `update`. -/
theorem update_clock (hstop : s.stop = false) (hprev : 0 < s.previousTick) {t old_tick : Int}
    {ticks : List (List Event)} (h : s.update onTimer fuel t = some (s', old_tick, ticks)) :
    s'.stop = false ∧ s'.previousTick = t ∧
      s'.tick = s.tick + (t - s.previousTick)
        - ticksIn (s.tick + (t - s.previousTick)) * PRECISION ∧
      ticks.length = ticksIn (s.tick + (t - s.previousTick)) := by
  rw [update_eq hstop (by omega), Option.map_eq_some_iff] at h
  obtain ⟨⟨s₁, ticks₁⟩, hrounds, heq⟩ := h
  cases heq
  exact ⟨rfl, rfl, rfl, rounds_length _ hrounds⟩

theorem updates_eq_update (hstop : s.stop = false) (htick : 0 ≤ s.tick)
    (hprev : 0 < s.previousTick) (readings : List Int) (tm : Int)
    (hsorted : (s.previousTick :: (readings ++ [tm])).Pairwise (· ≤ ·)) :
    s.updates onTimer fuel (readings ++ [tm])
      = (s.update onTimer fuel tm).map fun r => (r.1, r.2.2) := by
  induction readings generalizing s with
  | nil =>
    simp only [List.nil_append, updates, Option.bind_eq_bind, Option.bind_some, List.append_nil]
    rw [Option.map_eq_bind]
    rfl
  | cons t readings ih =>
    obtain ⟨hlow, hrest⟩ := List.pairwise_cons.mp hsorted
    have ht : s.previousTick ≤ t := hlow t (by simp)
    have htm : t ≤ tm := (List.pairwise_cons.mp hrest).1 tm (by simp)
    rw [← update_update hstop hprev htick ht htm, List.cons_append, updates]
    simp only [Option.bind_eq_bind]
    refine Option.bind_congr fun r hr => ?_
    obtain ⟨s₁, old_tick, ticks⟩ := r
    obtain ⟨hstop₁, hprev₁, htick₁, -⟩ := update_clock hstop hprev hr
    rw [ih hstop₁ ?_ (by omega) (by rw [hprev₁]; exact hrest), Option.bind_map, Option.map_eq_bind]
    · rfl
    · rw [htick₁]
      unfold ticksIn PRECISION
      omega

/-! ## Reached states -/

theorem processTick_clock {events : List Event} (h : processTick onTimer fuel s = some (s', events)) :
    s' = s'.setClock s.stop s.tick s.previousTick := by
  have hsame := processTick_setClock onTimer fuel s s.stop s.tick s.previousTick
  rw [setClock_self, h] at hsame
  simpa using congrArg (·.map Prod.fst) hsame

/-- Stopped or not, every round takes a tick off `tick_`. -/
theorem updateLoop_clock (n : Nat) : ∀ {s s' : BaseTimer σ} {ticks : List (List Event)},
    updateLoop onTimer fuel n s = some (s', ticks) →
      s'.tick = s.tick - n * PRECISION ∧ s'.previousTick = s.previousTick := by
  induction n with
  | zero =>
    intro s s' ticks h
    cases h
    simp
  | succ n ih =>
    intro s s' ticks h
    rw [updateLoop] at h
    simp only at h
    split at h
    · obtain ⟨htick, hprev⟩ := ih h
      refine ⟨?_, hprev⟩
      rw [htick]
      push_cast
      ring
    · simp only [Option.bind_eq_bind, Option.bind_eq_some_iff, Option.some.injEq,
        Prod.mk.injEq] at h
      obtain ⟨⟨s₁, events⟩, h₁, ⟨s₂, more⟩, h₂, rfl, -⟩ := h
      obtain ⟨htick, hprev⟩ := ih h₂
      have hkept := processTick_clock h₁
      have htick₁ : s₁.tick = s.tick - PRECISION := by rw [hkept]; rfl
      have hprev₁ : s₁.previousTick = s.previousTick := by rw [hkept]; rfl
      refine ⟨?_, hprev.trans hprev₁⟩
      rw [htick, htick₁]
      push_cast
      ring

/-- `previous_tick_` is the last reading and `tick_` less than a tick. -/
theorem Clocked.clock {p : Int} {trace : List Entry} (h : Clocked onTimer p trace s) :
    s.previousTick = p ∧ 0 ≤ p ∧ 0 ≤ s.tick ∧ s.tick < PRECISION := by
  induction h with
  | init c => exact ⟨rfl, Int.le_refl 0, Int.le_refl 0, show (0 : Int) < PRECISION by decide⟩
  | update fuel now_tick old_tick s' ticks _ hpos hle h ih =>
    obtain ⟨hprev, -, htick, hlt⟩ := ih
    simp only [BaseTimer.update, Option.bind_eq_bind, Option.bind_eq_some_iff, Option.some.injEq,
      Prod.mk.injEq] at h
    obtain ⟨⟨s₁, ticks₁⟩, hloop, rfl, -, -⟩ := h
    obtain ⟨htick₁, hprev₁⟩ := updateLoop_clock _ hloop
    refine ⟨hprev₁, hpos.le, ?_⟩
    rw [htick₁]
    unfold readClock PRECISION at *
    simp only
    split <;> omega
  | insert _ _ _ ih => exact ih
  | child _ _ ih => exact ih
  | stop _ ih => exact ih
  | start _ ih => exact ih

/-- **Batching.**  One call of `update` at the last reading processes the ticks that a call at
every reading processes, each with the same calls of `on_timer`, and leaves the same timer;
`floor((tick_ + tm - p) / PRECISION)` ticks, the remainder stays in `tick_`. -/
theorem batching_update {p : Int} {trace : List Entry} (h : Clocked onTimer p trace s) (hp : 0 < p)
    (hstop : s.stop = false) (readings : List Int) (tm : Int)
    (hsorted : (p :: (readings ++ [tm])).Pairwise (· ≤ ·)) :
    s.updates onTimer fuel (readings ++ [tm])
        = (s.update onTimer fuel tm).map (fun r => (r.1, r.2.2)) ∧
      ∀ s' ticks, s.updates onTimer fuel (readings ++ [tm]) = some (s', ticks) →
        (ticks.length : Int) = (s.tick + tm - p) / PRECISION ∧
          s'.tick = (s.tick + tm - p) % PRECISION := by
  obtain ⟨rfl, -, htick, -⟩ := h.clock
  have hone : s.updates onTimer fuel (readings ++ [tm]) = _ :=
    updates_eq_update hstop htick hp readings tm hsorted
  refine ⟨hone, fun s' ticks hrun => ?_⟩
  rw [hone, Option.map_eq_some_iff] at hrun
  obtain ⟨⟨s₁, old_tick, ticks₁⟩, hupdate, heq⟩ := hrun
  cases heq
  obtain ⟨-, -, htick₁, hlength⟩ := update_clock hstop hp hupdate
  have htm : s.previousTick ≤ tm := (List.pairwise_cons.mp hsorted).1 tm (by simp)
  rw [hlength, htick₁]
  unfold ticksIn PRECISION
  omega

theorem batching_update_two_readings :
    let s : BaseTimer Unit := ({ child := (), previousTick := 1000 } : BaseTimer Unit).insertTimer 10 1
    s.updates (fun c _ => some ⟨c, [], 0⟩) 2 ([1007] ++ [1015])
        = (s.update (fun c _ => some ⟨c, [], 0⟩) 2 1015).map (fun r => (r.1, r.2.2)) ∧
      ∀ s' ticks, s.updates (fun c _ => some ⟨c, [], 0⟩) 2 ([1007] ++ [1015]) = some (s', ticks) →
        (ticks.length : Int) = (s.tick + 1015 - 1000) / PRECISION ∧
          s'.tick = (s.tick + 1015 - 1000) % PRECISION :=
  batching_update (.insert 10 1 (.update 2 1000 0 _ [] (.init ()) (by decide) (by decide) rfl))
    (by decide) rfl [1007] 1015 (by decide)

end

end HappyServer.Timer
