import Mathlib.Tactic.Abel
import HappyServer.Timer.Agenda

/-!
# The schedule law

A run of a `base_timer` is a sequence of calls of `update` and `insert_timer`; its
trace lists the ticks processed, each with what `expired` did in it, and the calls
of `insert_timer` between updates.

* `dueAt E p d`: the tick for which `insert_timer(d, ·)` arms after `E` ticks, the
  heads showing position `p`.
* `dues`, `fires`: over a trace, what was armed for which tick, what was called in
  which tick.

The law: what has been called and what the wheels still stand for is what was armed.

    Run onTimer trace s → pending (ticksOf trace) s + fires trace = dues trace   (run_law)

All the wheels stand for lies ahead, so tick `t` has called `on_timer(id)` as often
as `(t, id)` was armed (`count_fires`).
-/

namespace HappyServer.Timer

open Word Rotation TimerWheel BaseTimer

variable {σ : Type}

/-! ## Ticks to wait -/

/-- A duration the callers of `insert_timer` pass: an `int32_t` above `-PRECISION`. -/
def Dur (d : Int) : Prop := -PRECISION < d ∧ d < 2 ^ 31

/-- Rounding up does not overflow. -/
def Fits (d : Int) : Prop := d % PRECISION = 0 ∨ d ≤ 2147483637

instance (d : Int) : Decidable (Dur d) := inferInstanceAs (Decidable (_ ∧ _))
instance (d : Int) : Decidable (Fits d) := inferInstanceAs (Decidable (_ ∨ _))

/-- `max(1, ceil(d / 10))` -/
def ticks (d : Int) : Nat := max 1 ((d + 9) / PRECISION).toNat

theorem tdiv_precision (d : Int) : d.tdiv PRECISION = if 0 ≤ d then d / 10 else -(-d / 10) := by
  unfold PRECISION
  split
  · rw [Int.tdiv_eq_ediv_of_nonneg (by omega)]
  · rw [← Int.neg_neg d, Int.neg_tdiv, Int.tdiv_eq_ediv_of_nonneg (by omega), Int.neg_neg]

theorem tmod_precision_pos (d : Int) : d.tmod PRECISION > 0 ↔ 0 < d ∧ d % 10 ≠ 0 := by
  have h := Int.mul_tdiv_add_tmod d PRECISION
  rw [tdiv_precision] at h
  generalize d.tmod PRECISION = r at h ⊢
  unfold PRECISION at h
  split at h <;> omega

/-- `slotCount` with the signed division written out. -/
theorem slotCount_eq (d : Int) :
    slotCount d =
      let diff := if 0 < d ∧ d % 10 ≠ 0 then i32 (d + 10) else d
      max 1 (u64 (if 0 ≤ diff then diff / 10 else -(-diff / 10))) := by
  have hmax : ∀ u : Nat, (if u > 0 then u else 1) = max 1 u := by intro u; split <;> omega
  unfold slotCount
  simp only [tmod_precision_pos, tdiv_precision, hmax]
  rfl

theorem slotCount_pos (d : Int) : 1 ≤ slotCount d := by
  rw [slotCount_eq]
  exact Nat.le_max_left _ _

theorem slotCount_of_fits (d : Int) (hd : Dur d) (hf : Fits d) : slotCount d = ticks d := by
  unfold Dur Fits PRECISION at *
  rw [slotCount_eq]
  unfold ticks PRECISION
  by_cases hr : 0 < d ∧ d % 10 ≠ 0
  · simp only [if_pos hr]
    rw [i32_of_range _ (by omega) (by omega), if_pos (by omega)]
    have := u64_of_range ((d + 10) / 10) (by omega) (by omega)
    omega
  · simp only [if_neg hr]
    rcases Int.lt_or_le d 0 with hneg | hpos
    · rw [if_neg (by omega), show -(-d / 10) = 0 by omega, show (d + 9) / 10 = 0 by omega]
      rfl
    · rw [if_pos hpos]
      have := u64_of_range (d / 10) (by omega) (by omega)
      omega

/-- When rounding up overflows, the count is huge. -/
theorem slotCount_of_not_fits (d : Int) (hd : Dur d) (hf : ¬Fits d) :
    2 ^ 63 ≤ slotCount d ∧ slotCount d + WHEEL_SIZE ≤ 2 ^ 64 := by
  unfold Dur Fits PRECISION at *
  rw [slotCount_eq, if_pos (by omega)]
  unfold WHEEL_SIZE
  have hw : i32 (d + 10) = d + 10 - 2 ^ 32 := by unfold i32; omega
  simp only [hw]
  rw [if_neg (by omega)]
  unfold u64
  omega

theorem slotCount_le (d : Int) (hd : Dur d) : slotCount d + WHEEL_SIZE ≤ 2 ^ 64 := by
  by_cases hf : Fits d
  · rw [slotCount_of_fits d hd hf]
    unfold ticks Dur PRECISION WHEEL_SIZE at *
    omega
  · exact (slotCount_of_not_fits d hd hf).2

/-! ## Arming -/

/-- The heads show position `p`, and the keys can be decoded. -/
structure Stands (p : Nat) (s : BaseTimer σ) : Prop where
  length : s.wheels.length = 4
  aligned : Aligned p s.wheels
  decodable : Decodable 0 s.wheels

/-- Only the wheels matter. -/
theorem Stands.congr {τ : Type} {p : Nat} {s : BaseTimer σ} {s' : BaseTimer τ} (hs : Stands p s)
    (h : s'.wheels = s.wheels) : Stands p s' := by
  refine ⟨?_, ?_, ?_⟩
  · rw [h]
    exact hs.length
  · rw [h]
    exact hs.aligned
  · rw [h]
    exact hs.decodable

/-- What the wheels stand for after `E` ticks. -/
def pending (E : Nat) (s : BaseTimer σ) : Multiset (Nat × TimerId) := agenda 0 E s.wheels

/-- The position the heads show during tick `E + 1`: wheel 0 has moved on, the wheels
above follow only when the tick is over. -/
def within (E : Nat) : Nat := WHEEL_SIZE * (E / WHEEL_SIZE) + (E + 1) % WHEEL_SIZE

theorem within_div (E : Nat) : within E / WHEEL_SIZE = E / WHEEL_SIZE := by
  unfold within WHEEL_SIZE; omega

theorem within_mod (E : Nat) : within E % WHEEL_SIZE = (E + 1) % WHEEL_SIZE := by
  unfold within WHEEL_SIZE; omega

/-- The tick for which `insert_timer` arms after `E` ticks, the heads showing `p`. -/
def dueAt (E p : Nat) (d : Int) : Option Nat := armDue WHEEL_SIZE 3 E p (slotCount d)

theorem stands_init (c : σ) : Stands 0 ({ child := c } : BaseTimer σ) where
  length := rfl
  aligned := ⟨rfl, rfl, rfl, rfl, trivial⟩
  decodable := by
    have h : ∀ (i : Nat) (j key : Nat), key ∈ (({} : TimerWheel WHEEL_SIZE).array j) →
        ∀ l < i, getSlot key l < WHEEL_SIZE := by
      intro i j key hk
      simp at hk
    exact ⟨h _, h _, h _, h _, trivial⟩

theorem pending_init (c : σ) : pending 0 ({ child := c } : BaseTimer σ) = 0 := by
  have h : ∀ i c, wheelAgenda i c ({} : TimerWheel WHEEL_SIZE) = 0 := by
    intro i c
    exact gather_nil _ fun _ => rfl
  simp [pending, agenda, h]

theorem lt_of_mem_pending (E : Nat) (s : BaseTimer σ) : ∀ e ∈ pending E s, E < e.1 :=
  lt_of_mem_agenda (by decide) s.wheels 0 E E fun _ _ h => h

theorem Stands.cons {p : Nat} {s : BaseTimer σ} (hs : Stands p s) :
    ∃ w ws, s.wheels = w :: ws ∧ ws.length = 3 := by
  have hlen := hs.length
  cases hw : s.wheels with
  | nil => rw [hw] at hlen; simp at hlen
  | cons w ws => rw [hw] at hlen; exact ⟨w, ws, rfl, by simpa using hlen⟩

theorem insertTimer_pending (E p : Nat) (s : BaseTimer σ) (d : Int) (id : TimerId) (hs : Stands p s)
    (hE : E / WHEEL_SIZE = p / WHEEL_SIZE) (hd : Dur d) :
    pending E (s.insertTimer d id) = pending E s + armed (dueAt E p d) id ∧
      Stands p (s.insertTimer d id) := by
  obtain ⟨w, ws, hw, hws⟩ := hs.cons
  obtain ⟨hlen, hal, hdec⟩ := hs
  have hheads := insertTimer_heads d id s.wheels
  have hal' := aligned_congr _ p _ hheads hal
  have hlen' := congrArg List.length hheads
  rw [List.length_map, List.length_map] at hlen'
  rw [hw] at hal hdec
  have h := insertTimer_agenda (by decide) (by decide) id d E p w ws hal hdec (by omega)
    (slotCount_pos d) (slotCount_le d hd) hE
  rw [hws, ← hw] at h
  exact ⟨h.1, hlen'.trans hlen, hal', h.2⟩

/-- What a list of calls of `insert_timer` arms. -/
def dueAll (E p : Nat) (arms : List (Int × TimerId)) : List (Nat × TimerId) :=
  arms.flatMap fun a => armed (dueAt E p a.1) a.2

theorem insertAll_pending (E p : Nat) (hE : E / WHEEL_SIZE = p / WHEEL_SIZE)
    (arms : List (Int × TimerId)) :
    ∀ s : BaseTimer σ, Stands p s → (∀ a ∈ arms, Dur a.1) →
      pending E (s.insertAll arms) = pending E s + dueAll E p arms ∧ Stands p (s.insertAll arms) := by
  induction arms with
  | nil => intro s hs _; exact ⟨(add_zero _).symm, hs⟩
  | cons a arms ih =>
    intro s hs h
    obtain ⟨h1, h2⟩ := insertTimer_pending E p s a.1 a.2 hs hE (h a List.mem_cons_self)
    obtain ⟨h3, h4⟩ := ih _ h2 fun a' h' => h a' (List.mem_cons_of_mem _ h')
    refine ⟨?_, h4⟩
    rw [h1, add_assoc] at h3
    exact h3

@[simp] theorem insertAll_child (arms : List (Int × TimerId)) :
    ∀ s : BaseTimer σ, (s.insertAll arms).child = s.child := by
  induction arms with
  | nil => intro s; rfl
  | cons a arms ih => intro s; exact ih (s.insertTimer a.1 a.2)

/-! ## A tick -/

theorem popKey_some (s s1 : BaseTimer σ) (slot key : Nat) (h : s.popKey slot = some (key, s1)) :
    ∃ w ws keys, s.wheels = w :: ws ∧ w.array slot = key :: keys ∧
      s1 = { s with wheels := w.set slot keys :: ws } := by
  unfold popKey at h
  split at h
  · simp at h
  next w ws hw =>
    split at h
    · simp at h
    next k keys hk =>
      simp only [Option.some.injEq, Prod.mk.injEq] at h
      obtain ⟨rfl, rfl⟩ := h
      exact ⟨w, ws, keys, hw, hk, rfl⟩

theorem popKey_none (s : BaseTimer σ) (w : TimerWheel WHEEL_SIZE) (ws : List (TimerWheel WHEEL_SIZE))
    (slot : Nat) (hw : s.wheels = w :: ws) : s.popKey slot = none ↔ w.array slot = [] := by
  unfold popKey
  rw [hw]
  simp only
  split <;> simp [*]

/-- The first key of the slot due now stands for a call in this tick. -/
theorem popKey_pending (E p : Nat) (s s1 : BaseTimer σ) (key : Nat) (hs : Stands p s)
    (h : s.popKey (E % WHEEL_SIZE) = some (key, s1)) :
    pending E s = pending E s1 + {(E + 1, keyId key)} ∧ Stands p s1 ∧ s1.child = s.child := by
  obtain ⟨w, ws, keys, hw, hk, rfl⟩ := popKey_some s s1 _ key h
  obtain ⟨hlen, hal, hdec⟩ := hs
  have hslot : E % WHEEL_SIZE < WHEEL_SIZE := Nat.mod_lt _ (by decide)
  rw [hw] at hlen hal hdec
  refine ⟨?_, ⟨hlen, hal, ⟨fun j key' _ l hl => absurd hl (Nat.not_lt_zero l), hdec.2⟩⟩, rfl⟩
  unfold pending
  simp only [hw, agenda]
  rw [wheelAgenda_pop 0 E _ key keys w hslot hk, entry, dueFrom, visit_self (by decide)]
  abel

/-- **The rule of `expired`.**  `P s events`: the timer and what happened so far. -/
theorem expired_rule (onTimer : σ → TimerId → Option (Fired σ)) (slot : Nat)
    (P : BaseTimer σ → List Event → Prop)
    (hround : ∀ s events key s1 r, P s events → s.popKey slot = some (key, s1) →
      onTimer s1.child (keyId key) = some r →
      P ({ s1 with child := r.child }.insertAll (r.arms (keyId key)))
        (events ++ r.events (keyId key))) :
    ∀ fuel s s' before events, expired onTimer slot fuel s = some (s', events) → P s before →
      P s' (before ++ events) ∧ s'.popKey slot = none := by
  intro fuel
  induction fuel with
  | zero => intro s s' before events h; simp [expired] at h
  | succ fuel ih =>
    intro s s' before events h hP
    rw [expired] at h
    split at h
    next hnone =>
      simp only [Option.some.injEq, Prod.mk.injEq] at h
      obtain ⟨rfl, rfl⟩ := h
      rw [List.append_nil]
      exact ⟨hP, hnone⟩
    next key s1 hpop =>
      simp only [Option.bind_eq_bind, Option.bind_eq_some_iff] at h
      obtain ⟨r, hr, ⟨s2, events2⟩, h2, h⟩ := h
      simp only [Option.some.injEq, Prod.mk.injEq] at h
      obtain ⟨rfl, rfl⟩ := h
      rw [← List.append_assoc]
      exact ih _ _ _ _ h2 (hround s before key s1 r hP hpop hr)

/-- The timer when `expired` is called: wheel 0 moved on. -/
def popHead (s : BaseTimer σ) : BaseTimer σ :=
  match s.wheels with
  | [] => s
  | w :: ws => { s with wheels := w.popFront :: ws }

theorem stands_popHead (E : Nat) (s : BaseTimer σ) (hs : Stands E s) :
    Stands (within E) (popHead s) ∧ pending E (popHead s) = pending E s := by
  obtain ⟨hlen, hal, hdec⟩ := hs
  unfold popHead pending
  split
  next hw => rw [hw] at hlen; simp at hlen
  next w ws hw =>
    rw [hw] at hlen hal hdec
    refine ⟨⟨hlen, ⟨?_, ?_⟩, hdec⟩, by rw [agenda, wheelAgenda_popFront, ← agenda, hw]⟩
    · show (w.head + 1) % WHEEL_SIZE = _
      rw [hal.1, within_mod, Nat.mod_add_mod]
    · rw [within_div]
      exact hal.2

theorem cascadeLoop_length {Size : Nat} (ws : List (TimerWheel Size)) :
    ∀ i w, (cascadeLoop i w ws).length = ws.length + 1 := by
  induction ws with
  | nil => intro i w; rfl
  | cons next ws ih =>
    intro i w
    rw [cascadeLoop]
    split
    · rfl
    · rw [List.length_cons, ih, List.length_cons]

/-- The cascades end tick `E + 1`, its slot drained. -/
theorem cascade_pending (E : Nat) (s : BaseTimer σ) (hs : Stands (within E) s)
    (hnone : s.popKey (E % WHEEL_SIZE) = none) :
    Stands (E + 1) { s with wheels := cascade s.wheels } ∧
      pending (E + 1) { s with wheels := cascade s.wheels } = pending E s := by
  obtain ⟨w, ws, hw, hws⟩ := hs.cons
  obtain ⟨-, hal, hdec⟩ := hs
  have hslot := (popKey_none s w ws _ hw).mp hnone
  unfold pending
  rw [hw] at hal hdec ⊢
  obtain ⟨h1, h2, h3⟩ := cascade_agenda (by decide) ws 0 (E + 1) w (Nat.succ_pos E)
    (by rw [hal.1, within_mod]) (by rw [Nat.add_sub_cancel, ← within_div]; exact hal.2) hdec
  refine ⟨⟨?_, h2, h3⟩, ?_⟩
  · show (cascadeLoop 0 w ws).length = 4
    rw [cascadeLoop_length, hws]
  · show agenda 0 (E + 1) (cascadeLoop 0 w ws) = _
    rw [h1, Nat.add_sub_cancel, wheelAgenda_succ (by decide) 0 E w hslot]
    rfl

theorem processTick_cons (onTimer : σ → TimerId → Option (Fired σ)) (fuel : Nat) (s : BaseTimer σ)
    (w : TimerWheel WHEEL_SIZE) (ws : List (TimerWheel WHEEL_SIZE)) (hw : s.wheels = w :: ws) :
    processTick onTimer fuel s =
      (if w.front ≠ [] then expired onTimer w.head fuel (popHead s) else some (popHead s, [])).map
        fun p => ({ p.1 with wheels := cascade p.1.wheels }, p.2) := by
  unfold processTick popHead
  rw [hw]
  simp only
  split <;> rename_i hfront
  · cases expired onTimer w.head fuel { s with wheels := w.popFront :: ws } <;> rfl
  · rfl

/-- **The rule of a tick.**  What `expired` keeps up to its end. -/
theorem processTick_rule (onTimer : σ → TimerId → Option (Fired σ)) (fuel E : Nat)
    (P : BaseTimer σ → List Event → Prop)
    (hround : ∀ s events key s1 r, P s events → s.popKey (E % WHEEL_SIZE) = some (key, s1) →
      onTimer s1.child (keyId key) = some r →
      P ({ s1 with child := r.child }.insertAll (r.arms (keyId key)))
        (events ++ r.events (keyId key)))
    (s s' : BaseTimer σ) (events : List Event) (hs : Stands E s)
    (h : processTick onTimer fuel s = some (s', events)) (hP : P (popHead s) []) :
    ∃ t, P t events ∧ t.popKey (E % WHEEL_SIZE) = none ∧
      s' = { t with wheels := cascade t.wheels } := by
  obtain ⟨w, ws, hw, -⟩ := hs.cons
  have hal := hs.aligned
  rw [hw] at hal
  rw [processTick_cons onTimer fuel s w ws hw, hal.1, Option.map_eq_some_iff] at h
  obtain ⟨⟨t, events'⟩, h, ht⟩ := h
  simp only [Prod.mk.injEq] at ht
  obtain ⟨rfl, rfl⟩ := ht
  split at h
  · obtain ⟨h1, h2⟩ := expired_rule onTimer _ P hround _ _ _ [] _ h hP
    exact ⟨t, h1, h2, rfl⟩
  next hfront =>
    simp only [Option.some.injEq, Prod.mk.injEq] at h
    obtain ⟨rfl, rfl⟩ := h
    refine ⟨_, hP, ?_, rfl⟩
    rw [popKey_none _ w.popFront ws _ (by unfold popHead; rw [hw]), ← hal.1]
    exact not_not.mp hfront

/-- What the events of tick `E + 1` arm, and what they call. -/
def duesIn (E : Nat) (events : List Event) : List (Nat × TimerId) :=
  events.flatMap fun
    | .fire _ => []
    | .arm d id => armed (dueAt E (within E) d) id

def firesIn (E : Nat) (events : List Event) : List (Nat × TimerId) :=
  events.flatMap fun
    | .fire id => [(E + 1, id)]
    | .arm _ _ => []

@[simp] theorem duesIn_append (E : Nat) (a b : List Event) :
    duesIn E (a ++ b) = duesIn E a ++ duesIn E b := List.flatMap_append

@[simp] theorem firesIn_append (E : Nat) (a b : List Event) :
    firesIn E (a ++ b) = firesIn E a ++ firesIn E b := List.flatMap_append

theorem duesIn_events (E : Nat) (r : Fired σ) (id : TimerId) :
    duesIn E (r.events id) = dueAll E (within E) (r.arms id) := by
  unfold duesIn Fired.events dueAll
  rw [List.flatMap_cons, List.flatMap_map]
  rfl

theorem firesIn_events (E : Nat) (r : Fired σ) (id : TimerId) :
    firesIn E (r.events id) = [(E + 1, id)] := by
  unfold firesIn Fired.events
  rw [List.flatMap_cons, List.flatMap_map]
  simp

/-- The durations that `on_timer` arms and returns are durations. -/
def Sane (onTimer : σ → TimerId → Option (Fired σ)) : Prop :=
  ∀ child id r, onTimer child id = some r → ∀ a ∈ r.arms id, Dur a.1

/-- What `expired` keeps in tick `E + 1`; `m` was pending when it began. -/
def Law (E : Nat) (m : Multiset (Nat × TimerId)) (s : BaseTimer σ) (events : List Event) : Prop :=
  Stands (within E) s ∧ pending E s + firesIn E events = m + duesIn E events

theorem law_round (onTimer : σ → TimerId → Option (Fired σ)) (hsane : Sane onTimer) (E : Nat)
    (m : Multiset (Nat × TimerId)) (s : BaseTimer σ) (events : List Event) (key : Nat)
    (s1 : BaseTimer σ) (r : Fired σ) (h : Law E m s events)
    (hpop : s.popKey (E % WHEEL_SIZE) = some (key, s1))
    (hr : onTimer s1.child (keyId key) = some r) :
    Law E m ({ s1 with child := r.child }.insertAll (r.arms (keyId key)))
      (events ++ r.events (keyId key)) := by
  obtain ⟨h1, h2⟩ := h
  obtain ⟨h3, h4, -⟩ := popKey_pending E _ s s1 key h1 hpop
  obtain ⟨h5, h6⟩ := insertAll_pending E (within E) (within_div E).symm (r.arms (keyId key))
    { s1 with child := r.child } (h4.congr rfl) (hsane _ _ _ hr)
  have hsame : pending E { s1 with child := r.child } = pending E s1 := rfl
  refine ⟨h6, ?_⟩
  rw [h5, hsame, duesIn_append, firesIn_append, duesIn_events, firesIn_events,
    ← Multiset.coe_add, ← Multiset.coe_add, ← add_assoc m, ← h2, h3, Multiset.coe_singleton]
  abel

/-- **A tick**: the calls made and what is then pending are what was pending and what
was armed. -/
theorem processTick_pending (onTimer : σ → TimerId → Option (Fired σ)) (hsane : Sane onTimer)
    (fuel E : Nat) (s s' : BaseTimer σ) (events : List Event) (hs : Stands E s)
    (h : processTick onTimer fuel s = some (s', events)) :
    Stands (E + 1) s' ∧
      pending (E + 1) s' + firesIn E events = pending E s + duesIn E events := by
  obtain ⟨h1, h2⟩ := stands_popHead E s hs
  have hstart : Law E (pending E s) (popHead s) [] := ⟨h1, by rw [h2]; rfl⟩
  obtain ⟨t, ⟨h3, h4⟩, hnone, rfl⟩ := processTick_rule onTimer fuel E (Law E (pending E s))
    (law_round onTimer hsane E _) s s' events hs h hstart
  obtain ⟨h5, h6⟩ := cascade_pending E t h3 hnone
  exact ⟨h5, by rw [h6, h4]⟩

/-- What `on_timer` keeps of the derived class, a tick keeps. -/
theorem processTick_child (onTimer : σ → TimerId → Option (Fired σ)) (Q : σ → Prop)
    (hQ : ∀ c id r, Q c → onTimer c id = some r → Q r.child) (fuel E : Nat) (s s' : BaseTimer σ)
    (events : List Event) (hs : Stands E s) (h : processTick onTimer fuel s = some (s', events))
    (hc : Q s.child) : Q s'.child := by
  have hround : ∀ (t : BaseTimer σ) (before : List Event) key t1 (r : Fired σ), Q t.child →
      t.popKey (E % WHEEL_SIZE) = some (key, t1) → onTimer t1.child (keyId key) = some r →
      Q ({ t1 with child := r.child }.insertAll (r.arms (keyId key))).child := by
    intro t _ key t1 r hq hpop hr
    obtain ⟨w, ws, keys, -, -, rfl⟩ := popKey_some t t1 _ key hpop
    rw [insertAll_child]
    exact hQ _ _ r hq hr
  have hstart : Q (popHead s).child := by
    unfold popHead
    split <;> exact hc
  obtain ⟨t, ht, -, rfl⟩ :=
    processTick_rule onTimer fuel E (fun t _ => Q t.child) hround s s' events hs h hstart
  exact ht

/-! ## `update` -/

/-- **The rule of `update`.**  `P s ticks`: the timer and the ticks processed so far. -/
theorem updateLoop_rule (onTimer : σ → TimerId → Option (Fired σ)) (fuel : Nat)
    (P : BaseTimer σ → List (List Event) → Prop)
    (hclock : ∀ s ticks x y, P s ticks → P { s with tick := x, previousTick := y } ticks)
    (htick : ∀ s ticks s' events, P s ticks → processTick onTimer fuel s = some (s', events) →
      P s' (ticks ++ [events])) :
    ∀ n s s' before ticks, updateLoop onTimer fuel n s = some (s', ticks) → P s before →
      P s' (before ++ ticks) := by
  intro n
  induction n with
  | zero =>
    intro s s' before ticks h hP
    simp only [updateLoop, Option.some.injEq, Prod.mk.injEq] at h
    obtain ⟨rfl, rfl⟩ := h
    rw [List.append_nil]
    exact hP
  | succ n ih =>
    intro s s' before ticks h hP
    have hP' := hclock s before (s.tick - PRECISION) s.previousTick hP
    rw [updateLoop] at h
    simp only at h
    split at h
    · exact ih _ _ _ _ h hP'
    · simp only [Option.bind_eq_bind, Option.bind_eq_some_iff, Option.some.injEq,
        Prod.mk.injEq] at h
      obtain ⟨⟨s1, events⟩, h1, ⟨s2, ticks2⟩, h2, rfl, rfl⟩ := h
      have := ih _ _ _ _ h2 (htick _ _ _ _ hP' h1)
      rwa [List.append_assoc] at this

theorem update_rule (onTimer : σ → TimerId → Option (Fired σ)) (fuel : Nat)
    (P : BaseTimer σ → List (List Event) → Prop)
    (hclock : ∀ s ticks x y, P s ticks → P { s with tick := x, previousTick := y } ticks)
    (htick : ∀ s ticks s' events, P s ticks → processTick onTimer fuel s = some (s', events) →
      P s' (ticks ++ [events]))
    (now_tick old_tick : Int) (s s' : BaseTimer σ) (ticks : List (List Event))
    (h : s.update onTimer fuel now_tick = some (s', old_tick, ticks)) (hP : P s []) : P s' ticks := by
  unfold update at h
  simp only [Option.bind_eq_bind, Option.bind_eq_some_iff, Option.some.injEq, Prod.mk.injEq] at h
  obtain ⟨⟨s1, ticks1⟩, h1, rfl, -, rfl⟩ := h
  exact updateLoop_rule onTimer fuel P hclock htick _ _ _ [] _ h1 (hclock s [] _ _ hP)

/-- The rule with the position that the heads show: `E` ticks before the call. -/
theorem update_stands_rule (onTimer : σ → TimerId → Option (Fired σ)) (hsane : Sane onTimer)
    (fuel E : Nat) (P : BaseTimer σ → List (List Event) → Prop)
    (hclock : ∀ s ticks x y, P s ticks → P { s with tick := x, previousTick := y } ticks)
    (htick : ∀ s ticks s' events, Stands (E + ticks.length) s → P s ticks →
      processTick onTimer fuel s = some (s', events) → P s' (ticks ++ [events]))
    (now_tick old_tick : Int) (s s' : BaseTimer σ) (ticks : List (List Event))
    (h : s.update onTimer fuel now_tick = some (s', old_tick, ticks)) (hs : Stands E s)
    (hP : P s []) : Stands (E + ticks.length) s' ∧ P s' ticks := by
  let R : BaseTimer σ → List (List Event) → Prop := fun s ticks =>
    Stands (E + ticks.length) s ∧ P s ticks
  have hclock' : ∀ s ticks x y, R s ticks → R { s with tick := x, previousTick := y } ticks :=
    fun s ticks x y hR => ⟨hR.1.congr rfl, hclock s ticks x y hR.2⟩
  refine update_rule onTimer fuel R hclock' ?_ now_tick old_tick s s' ticks h ⟨hs, hP⟩
  intro t before t' events ⟨h1, h2⟩ hstep
  refine ⟨?_, htick t before t' events h1 h2 hstep⟩
  rw [List.length_append]
  exact (processTick_pending onTimer hsane fuel _ t t' events h1 hstep).1

/-! ## Runs -/

/-- What a run does, in order: a tick processed, a call of `insert_timer` between updates. -/
inductive Entry where
  | tick (events : List Event)
  | arm (duration : Int) (id : TimerId)
deriving DecidableEq, Repr

def ticksOf : List Entry → Nat
  | [] => 0
  | .tick _ :: trace => ticksOf trace + 1
  | .arm _ _ :: trace => ticksOf trace

def duesFrom : (E : Nat) → List Entry → List (Nat × TimerId)
  | _, [] => []
  | E, .tick events :: trace => duesIn E events ++ duesFrom (E + 1) trace
  | E, .arm d id :: trace => armed (dueAt E E d) id ++ duesFrom E trace

def firesFrom : (E : Nat) → List Entry → List (Nat × TimerId)
  | _, [] => []
  | E, .tick events :: trace => firesIn E events ++ firesFrom (E + 1) trace
  | E, .arm _ _ :: trace => firesFrom E trace

/-- What a trace armed, and what it called, each with its tick. -/
def dues (trace : List Entry) : List (Nat × TimerId) := duesFrom 0 trace
def fires (trace : List Entry) : List (Nat × TimerId) := firesFrom 0 trace

theorem ticksOf_append (a b : List Entry) : ticksOf (a ++ b) = ticksOf a + ticksOf b := by
  induction a with
  | nil => simp [ticksOf]
  | cons e a ih =>
    cases e with
    | tick events => simp only [List.cons_append, ticksOf, ih]; omega
    | arm d id => simp only [List.cons_append, ticksOf, ih]

theorem ticksOf_ticks (ticks : List (List Event)) : ticksOf (ticks.map .tick) = ticks.length := by
  induction ticks with
  | nil => rfl
  | cons e ticks ih => rw [List.map_cons, ticksOf, ih, List.length_cons]

theorem duesFrom_append (a b : List Entry) :
    ∀ E, duesFrom E (a ++ b) = duesFrom E a ++ duesFrom (E + ticksOf a) b := by
  induction a with
  | nil => intro E; rfl
  | cons e a ih =>
    intro E
    cases e with
    | tick events =>
      simp only [List.cons_append, duesFrom, ticksOf, ih, List.append_assoc]
      rw [show E + 1 + ticksOf a = E + (ticksOf a + 1) by omega]
    | arm d id => simp only [List.cons_append, duesFrom, ticksOf, ih, List.append_assoc]

theorem firesFrom_append (a b : List Entry) :
    ∀ E, firesFrom E (a ++ b) = firesFrom E a ++ firesFrom (E + ticksOf a) b := by
  induction a with
  | nil => intro E; rfl
  | cons e a ih =>
    intro E
    cases e with
    | tick events =>
      simp only [List.cons_append, firesFrom, ticksOf, ih, List.append_assoc]
      rw [show E + 1 + ticksOf a = E + (ticksOf a + 1) by omega]
    | arm d id => simp only [List.cons_append, firesFrom, ticksOf, ih]

theorem dues_tick (trace : List Entry) (events : List Event) :
    dues (trace ++ [.tick events]) = dues trace ++ duesIn (ticksOf trace) events := by
  unfold dues
  rw [duesFrom_append, Nat.zero_add, duesFrom, duesFrom, List.append_nil]

theorem dues_arm (trace : List Entry) (d : Int) (id : TimerId) :
    dues (trace ++ [.arm d id]) = dues trace ++ armed (dueAt (ticksOf trace) (ticksOf trace) d) id := by
  unfold dues
  rw [duesFrom_append, Nat.zero_add, duesFrom, duesFrom, List.append_nil]

theorem fires_tick (trace : List Entry) (events : List Event) :
    fires (trace ++ [.tick events]) = fires trace ++ firesIn (ticksOf trace) events := by
  unfold fires
  rw [firesFrom_append, Nat.zero_add, firesFrom, firesFrom, List.append_nil]

theorem fires_arm (trace : List Entry) (d : Int) (id : TimerId) :
    fires (trace ++ [.arm d id]) = fires trace := by
  unfold fires
  rw [firesFrom_append, firesFrom, firesFrom, List.append_nil]

/-- The states a `base_timer` reaches between calls, and how: it may be updated, armed,
stopped and started, and the derived class may change its own state. -/
inductive Run (onTimer : σ → TimerId → Option (Fired σ)) : List Entry → BaseTimer σ → Prop
  | init (c : σ) : Run onTimer [] { child := c }
  | update {trace s} (fuel now_tick old_tick s' ticks) : Run onTimer trace s →
      s.update onTimer fuel now_tick = some (s', old_tick, ticks) →
      Run onTimer (trace ++ ticks.map .tick) s'
  | insert {trace s} (d id) : Run onTimer trace s → Dur d →
      Run onTimer (trace ++ [.arm d id]) (s.insertTimer d id)
  | child {trace s} (c) : Run onTimer trace s → Run onTimer trace { s with child := c }
  | stop {trace s} : Run onTimer trace s → Run onTimer trace s.stopAllTimer
  | start {trace s} : Run onTimer trace s → Run onTimer trace s.startAllTimer

/-- **The schedule law.** -/
theorem run_law (onTimer : σ → TimerId → Option (Fired σ)) (hsane : Sane onTimer)
    {trace : List Entry} {s : BaseTimer σ} (h : Run onTimer trace s) :
    Stands (ticksOf trace) s ∧ pending (ticksOf trace) s + fires trace = dues trace := by
  induction h with
  | init c => exact ⟨stands_init c, by rw [ticksOf, pending_init]; rfl⟩
  | @update trace s fuel now_tick old_tick s' ticks _ h ih =>
    let P : BaseTimer σ → List (List Event) → Prop := fun t ticks =>
      pending (ticksOf trace + ticks.length) t + fires (trace ++ ticks.map .tick) =
        dues (trace ++ ticks.map .tick)
    rw [ticksOf_append, ticksOf_ticks]
    refine update_stands_rule onTimer hsane fuel _ P (fun _ _ _ _ hP => hP) ?_ now_tick old_tick s s'
      ticks h ih.1 (by simpa [P] using ih.2)
    intro t before t' events h1 h2 hstep
    have h3 := (processTick_pending onTimer hsane fuel _ t t' events h1 hstep).2
    have hticks : ticksOf (trace ++ before.map .tick) = ticksOf trace + before.length := by
      rw [ticksOf_append, ticksOf_ticks]
    show pending (ticksOf trace + (before ++ [events]).length) t' + _ = _
    rw [List.map_append, List.map_singleton, ← List.append_assoc, dues_tick, fires_tick, hticks,
      List.length_append, ← Multiset.coe_add, ← Multiset.coe_add, ← h2, add_left_comm]
    exact (congrArg _ h3).trans (by abel)
  | @insert trace s d id _ hd ih =>
    obtain ⟨h1, h2⟩ := ih
    obtain ⟨h3, h4⟩ := insertTimer_pending (ticksOf trace) _ s d id h1 rfl hd
    have hticks : ticksOf (trace ++ [.arm d id]) = ticksOf trace := ticksOf_append ..
    rw [hticks, dues_arm, fires_arm]
    refine ⟨h4, ?_⟩
    rw [h3, ← Multiset.coe_add, ← h2]
    abel
  | child c _ ih => exact ⟨ih.1.congr rfl, ih.2⟩
  | stop _ ih => exact ⟨ih.1.congr rfl, ih.2⟩
  | start _ ih => exact ⟨ih.1.congr rfl, ih.2⟩

/-- **Calls.**  Up to now, tick `t` has called `on_timer(id)` as often as it was armed for it. -/
theorem count_fires (onTimer : σ → TimerId → Option (Fired σ)) (hsane : Sane onTimer)
    {trace : List Entry} {s : BaseTimer σ} (h : Run onTimer trace s) (t : Nat) (id : TimerId)
    (ht : t ≤ ticksOf trace) :
    Multiset.count (t, id) (fires trace) = Multiset.count (t, id) (dues trace) := by
  obtain ⟨-, hlaw⟩ := run_law onTimer hsane h
  have hnot : (t, id) ∉ pending (ticksOf trace) s := fun hmem =>
    absurd (lt_of_mem_pending _ s _ hmem) (Nat.not_lt.mpr ht)
  rw [← hlaw, Multiset.count_add, Multiset.count_eq_zero_of_notMem hnot, Nat.zero_add]

end HappyServer.Timer
